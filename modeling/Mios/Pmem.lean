import Mios.Lib.Lists
import Mios.Lib.Run
import Mios.Lib.Span
import Mios.Lib.Word

/-! The physical memory map (`util/pmem.c`), for an `unsigned long` of any width. The segment array
is a list; its capacity is left out, and the allocation of a larger array succeeds. -/

namespace Mios.Pmem

open Lib List

variable {w : Nat}

/-! ## The code -/

/-- `pmem_segment_t` -/
structure Segment (w : Nat) where
  paddr : BitVec w
  size : BitVec w
  type : BitVec 32
  deriving DecidableEq, Repr, Inhabited

/-- `pmem_t` -/
structure Map (w : Nat) where
  segments : List (Segment w)
  minimumAlignment : BitVec w
  deriving DecidableEq, Repr

/-- `ALIGN(x, y)` -/
def align (x y : BitVec w) : BitVec w := (x + y - 1) &&& ~~~(y - 1)

/-- `pmem_insert` and the stores into the new segment. -/
def pmemInsert (segments : List (Segment w)) (pos : Nat) (s : Segment w) : List (Segment w) :=
  segments.take pos ++ s :: segments.drop pos

def pmemErase (segments : List (Segment w)) (pos : Nat) : List (Segment w) :=
  segments.take pos ++ segments.drop (pos + 1)

/-- The segment grows by another one. -/
def Segment.join (s t : Segment w) : Segment w := { s with size := s.size + t.size }

/-- The second half of `pmem_merge`: join with the segment behind. -/
def mergeRight (segments : List (Segment w)) (pos : Nat) : List (Segment w) :=
  let s := segments.getD pos default
  let t := segments.getD (pos + 1) default
  if pos < segments.length - 1 ∧ s.type = t.type then
    pmemErase (segments.set pos (s.join t)) (pos + 1)
  else segments

def pmemMerge (segments : List (Segment w)) (pos : Nat) : List (Segment w) :=
  let s := segments.getD pos default
  let t := segments.getD (pos - 1) default
  if 0 < pos ∧ s.type = t.type then
    mergeRight (pmemErase (segments.set (pos - 1) (t.join s)) pos) (pos - 1)
  else mergeRight segments pos

def pmemAdd (p : Map w) (paddr size : BitVec w) (type : BitVec 32) : Map w :=
  let paddr := align paddr p.minimumAlignment
  let size := align size p.minimumAlignment
  let pos := (p.segments.findIdx? fun s => paddr < s.paddr).getD p.segments.length
  { p with segments := pmemMerge (pmemInsert p.segments pos ⟨paddr, size, type⟩) pos }

/-- The range lies in the segment. -/
def Segment.holds (s : Segment w) (paddr size : BitVec w) : Bool :=
  s.paddr ≤ paddr && paddr + size ≤ s.paddr + s.size

/-- The body of the loop of `pmem_set` on the segment that holds the range. -/
def setIn (segments : List (Segment w)) (i : Nat) (paddr size : BitVec w) (type : BitVec 32) :
    List (Segment w) :=
  let s := segments.getD i default
  if paddr = s.paddr ∧ size = s.size then
    if s.type = type then segments
    else pmemMerge (segments.set i { s with type := type }) i -- full replace
  else if paddr = s.paddr then -- at start
    pmemMerge (pmemInsert (segments.set i { s with paddr := s.paddr + size, size := s.size - size })
      i ⟨paddr, size, type⟩) i
  else if paddr + size = s.paddr + s.size then -- at end
    pmemMerge (pmemInsert (segments.set i { s with size := s.size - size }) (i + 1)
      ⟨paddr, size, type⟩) (i + 1)
  else
    let behind : Segment w := ⟨paddr + size, s.size - size - (paddr - s.paddr), s.type⟩
    let segments := pmemInsert (pmemInsert segments (i + 1) ⟨paddr, size, type⟩) (i + 2) behind
    pmemMerge (segments.set i { s with size := paddr - s.paddr }) (i + 1)

/-- `pmem_set` without `allow_split`; the flag tells whether it returned 0. -/
def pmemSetWhole (p : Map w) (paddr size : BitVec w) (type : BitVec 32) : Map w × Bool :=
  let paddr := align paddr p.minimumAlignment
  let size := align size p.minimumAlignment
  match p.segments.findIdx? fun s => s.holds paddr size with
  | none => (p, false)
  | some i => ({ p with segments := setIn p.segments i paddr size type }, true)

/-- `pmem_set`: the first segment that holds the range, or, if a split is allowed, its start. -/
def pmemSet (p : Map w) (paddr size : BitVec w) (type : BitVec 32) (allowSplit : Bool) :
    Map w × Bool :=
  if !allowSplit then pmemSetWhole p paddr size type
  else
    let paddr := align paddr p.minimumAlignment
    let size := align size p.minimumAlignment
    match p.segments.findIdx? fun s => s.holds paddr size ||
        decide (s.paddr ≤ paddr) && decide (paddr < s.paddr + s.size) with
    | none => (p, false)
    | some i =>
        let s := p.segments.getD i default
        if s.holds paddr size then ({ p with segments := setIn p.segments i paddr size type }, true)
        else
          let split := s.paddr + s.size
          match pmemSetWhole p paddr (split - paddr) type with
          | (p, false) => (p, false)
          | (p, true) => pmemSetWhole p split (size - (split - paddr)) type

/-- The address `pmem_alloc` tries in a segment. -/
def Segment.top (s : Segment w) (size align : BitVec w) : BitVec w :=
  (s.paddr + (s.size - size)) &&& ~~~align

/-- The loop of `pmem_alloc` over the segments below `i`. -/
def allocLoop (p : Map w) (size : BitVec w) (fromType asType : BitVec 32) (align : BitVec w) :
    Nat → Map w × BitVec w
  | 0 => (p, 0)
  | i + 1 =>
      let s := p.segments.getD i default
      if s.type ≠ fromType then allocLoop p size fromType asType align i
      else if s.size < size then allocLoop p size fromType asType align i
      else
        match pmemSet p (s.top size align) size asType false with
        | (p, false) => allocLoop p size fromType asType align i
        | (p, true) => (p, s.top size align)

def pmemAlloc (p : Map w) (size : BitVec w) (fromType asType : BitVec 32) (align : BitVec w) :
    Map w × BitVec w :=
  if p.segments.length = 0 ∨ align = 0 then (p, 0)
  else allocLoop p size fromType asType align p.segments.length

/-! ## Segments as spans -/

namespace Segment

def lo (s : Segment w) : Nat := s.paddr.toNat

def hi (s : Segment w) : Nat := s.paddr.toNat + s.size.toNat

def span (s : Segment w) : Span (BitVec 32) := ⟨s.lo, s.hi, s.type⟩

@[simp] theorem span_lo (s : Segment w) : s.span.lo = s.lo := rfl

@[simp] theorem span_hi (s : Segment w) : s.span.hi = s.hi := rfl

@[simp] theorem span_val (s : Segment w) : s.span.val = s.type := rfl

/-- The segment is aligned and does not reach the end of the address space. -/
structure Fits (k : Nat) (s : Segment w) : Prop where
  lo_dvd : 2 ^ k ∣ s.lo
  size_dvd : 2 ^ k ∣ s.size.toNat
  hi_lt : s.hi < 2 ^ w

end Segment

/-- The spans of a segment array. -/
def spans (segments : List (Segment w)) : List (Span (BitVec 32)) := segments.map Segment.span

@[simp] theorem spans_append (l r : List (Segment w)) : spans (l ++ r) = spans l ++ spans r :=
  map_append

@[simp] theorem spans_cons (s : Segment w) (r : List (Segment w)) :
    spans (s :: r) = s.span :: spans r := rfl

@[simp] theorem spans_nil : spans ([] : List (Segment w)) = [] := rfl

/-- Sorted, disjoint, without empty segments, each of them aligned. -/
structure Good (k : Nat) (segments : List (Segment w)) : Prop where
  ordered : Span.Ordered (spans segments)
  fits : ∀ s ∈ segments, s.Fits k

/-- The type of each address. -/
def types (segments : List (Segment w)) : Nat → Option (BitVec 32) := Span.lookup (spans segments)

/-- The segments `new` give the types `m`, and each segment of `old` lies in one of them. -/
structure Maps (k : Nat) (m : Nat → Option (BitVec 32)) (old new : List (Segment w)) : Prop where
  good : Good k new
  types_eq : types new = m
  covers : ∀ t ∈ old, ∃ t' ∈ new, t'.lo ≤ t.lo ∧ t.hi ≤ t'.hi

variable {k : Nat} {l r : List (Segment w)} {s t x y z : Segment w}

theorem Maps.refl (h : Good k l) : Maps k (types l) l l :=
  ⟨h, rfl, fun t ht => ⟨t, ht, le_rfl, le_rfl⟩⟩

theorem Maps.trans {m m' : Nat → Option (BitVec 32)} {l₁ l₂ l₃ : List (Segment w)}
    (h : Maps k m l₁ l₂) (h' : Maps k m' l₂ l₃) : Maps k m' l₁ l₃ := by
  refine ⟨h'.good, h'.types_eq, fun t ht => ?_⟩
  obtain ⟨u, hu, hlo, hhi⟩ := h.covers t ht
  obtain ⟨q, hq, hlo', hhi'⟩ := h'.covers u hu
  exact ⟨q, hq, Nat.le_trans hlo' hlo, Nat.le_trans hhi hhi'⟩

theorem Maps.of_subset {m : Nat → Option (BitVec 32)} {l₁ l₂ l₃ : List (Segment w)}
    (h : Maps k m l₂ l₃) (hsub : ∀ t ∈ l₁, t ∈ l₂) : Maps k m l₁ l₃ :=
  ⟨h.good, h.types_eq, fun t ht => h.covers t (hsub t ht)⟩

theorem good_middle (hord : Span.Ordered (spans (l ++ s :: r))) (hs : s.Fits k)
    (hrest : ∀ t ∈ l ++ r, t.Fits k) : Good k (l ++ s :: r) := by
  refine ⟨hord, fun t ht => ?_⟩
  rcases mem_append.mp ht with ht | ht
  · exact hrest t (mem_append_left _ ht)
  · rcases mem_cons.mp ht with rfl | ht
    · exact hs
    · exact hrest t (mem_append_right _ ht)

/-! ## Merging -/

theorem size_join (h : x.hi = z.lo) (hz : z.hi < 2 ^ w) :
    (x.join z).size.toNat = x.size.toNat + z.size.toNat := by
  refine BitVec.toNat_add_of_lt ?_
  simp only [Segment.hi, Segment.lo] at h hz
  omega

theorem hi_join (h : x.hi = z.lo) (hz : z.hi < 2 ^ w) : (x.join z).hi = z.hi := by
  rw [Segment.hi, size_join h hz]
  simp only [Segment.hi, Segment.lo, Segment.join] at h ⊢
  omega

theorem span_join (h : x.hi = z.lo) (hz : z.hi < 2 ^ w) (htype : z.type = x.type) :
    x.span = ⟨x.lo, x.hi, x.type⟩ ∧ z.span = ⟨x.hi, z.hi, x.type⟩ ∧
      (x.join z).span = ⟨x.lo, z.hi, x.type⟩ := by
  refine ⟨rfl, by rw [Segment.span, h, htype], ?_⟩
  rw [Segment.span, hi_join h hz]
  rfl

theorem fits_join (h : x.hi = z.lo) (hx : x.Fits k) (hz : z.Fits k) : (x.join z).Fits k := by
  refine ⟨hx.lo_dvd, ?_, ?_⟩
  · rw [size_join h hz.hi_lt]
    exact Nat.dvd_add hx.size_dvd hz.size_dvd
  · rw [hi_join h hz.hi_lt]
    exact hz.hi_lt

/-- Two segments of one type that touch can be joined. -/
theorem good_join (h : Good k (l ++ x :: z :: r)) (htouch : x.hi = z.lo) (htype : z.type = x.type) :
    Maps k (types (l ++ x :: z :: r)) (l ++ x :: z :: r) (l ++ x.join z :: r) := by
  have hx : x.Fits k := h.fits x (by simp)
  have hz : z.Fits k := h.fits z (by simp)
  obtain ⟨hxs, hzs, hjs⟩ := span_join htouch hz.hi_lt htype
  have hord :
      Span.Ordered (spans l ++ ⟨x.lo, x.hi, x.type⟩ :: ⟨x.hi, z.hi, x.type⟩ :: spans r) := by
    have := h.ordered
    rwa [spans_append, spans_cons, spans_cons, hxs, hzs] at this
  have hpos : x.lo < x.hi := hord.pos ⟨x.lo, x.hi, x.type⟩ (by simp)
  have hpos' : x.hi < z.hi := hord.pos ⟨x.hi, z.hi, x.type⟩ (by simp)
  refine ⟨?_, ?_, fun t ht => ?_⟩
  · refine good_middle ?_ (fits_join htouch hx hz) fun t ht => h.fits t ?_
    · rw [spans_append, spans_cons, hjs]
      exact Span.ordered_join hord
    · rcases mem_append.mp ht with ht | ht <;> simp [ht]
  · funext a
    rw [types, types, spans_append, spans_append, spans_cons, spans_cons, spans_cons, hjs, hxs, hzs]
    exact (Span.lookup_join hpos.le (Nat.le_of_lt hpos')).symm
  · have hjoin : (x.join z).hi = z.hi := hi_join htouch hz.hi_lt
    have hlo : (x.join z).lo = x.lo := rfl
    simp only [mem_append, mem_cons] at ht
    rcases ht with ht | rfl | rfl | ht
    · exact ⟨t, by simp [ht], le_rfl, le_rfl⟩
    · exact ⟨t.join z, by simp, le_rfl, by omega⟩
    · exact ⟨x.join t, by simp, by omega, by omega⟩
    · exact ⟨t, by simp [ht], le_rfl, le_rfl⟩

theorem pmemErase_append : pmemErase (l ++ x :: r) l.length = l ++ r := by
  simp [pmemErase]

/-- The second of two segments goes into the first. -/
theorem pmemErase_set : pmemErase ((l ++ x :: z :: r).set l.length s) (l.length + 1) =
    l ++ s :: r := by
  have hset : (l ++ x :: z :: r).set l.length s = (l ++ [s]) ++ z :: r := by simp
  have hpos : l.length + 1 = (l ++ [s]).length := by simp
  rw [hset, hpos, pmemErase_append]
  simp

theorem mergeRight_nil : mergeRight (l ++ [x]) l.length = l ++ [x] := by
  rw [mergeRight, if_neg]
  rintro ⟨h, -⟩
  simp at h

theorem mergeRight_cons : mergeRight (l ++ x :: z :: r) l.length =
    if x.type = z.type then l ++ x.join z :: r else l ++ x :: z :: r := by
  have hx : (l ++ x :: z :: r).getD l.length default = x := by simp
  have hz : (l ++ x :: z :: r).getD (l.length + 1) default = z := by simp
  have hlen : l.length < (l ++ x :: z :: r).length - 1 := by simp
  unfold mergeRight
  simp only [hx, hz, hlen, true_and]
  rw [pmemErase_set]

theorem pmemMerge_nil : pmemMerge (x :: r) 0 = mergeRight (x :: r) 0 := by
  rw [pmemMerge, if_neg fun h => Nat.lt_irrefl 0 h.1]

theorem pmemMerge_cons : pmemMerge (l ++ y :: x :: r) (l.length + 1) =
    if x.type = y.type then mergeRight (l ++ y.join x :: r) l.length
    else mergeRight (l ++ y :: x :: r) (l.length + 1) := by
  have hy : (l ++ y :: x :: r).getD l.length default = y := by simp
  have hx : (l ++ y :: x :: r).getD (l.length + 1) default = x := by simp
  unfold pmemMerge
  simp only [hx, hy, Nat.add_sub_cancel, Nat.zero_lt_succ, true_and]
  rw [pmemErase_set]

/-- Joining with a segment behind that touches keeps the map. -/
theorem mergeRight_good (h : Good k (l ++ x :: r))
    (htouch : ∀ z, r.head? = some z → z.type = x.type → x.hi = z.lo) :
    Maps k (types (l ++ x :: r)) (l ++ x :: r) (mergeRight (l ++ x :: r) l.length) := by
  cases r with
  | nil =>
    rw [mergeRight_nil]
    exact .refl h
  | cons z r =>
    rw [mergeRight_cons]
    split
    · rename_i htype
      exact good_join h (htouch z rfl htype.symm) htype.symm
    · exact .refl h

theorem touch_right (h : Good k (l ++ x :: r))
    (hclear : Span.Clear (types (l ++ x :: r)) x.lo x.hi x.type) :
    ∀ z, r.head? = some z → z.type = x.type → x.hi = z.lo := by
  intro z hz htype
  cases r with
  | nil => cases hz
  | cons z' r =>
    cases hz
    have hord := h.ordered
    rw [types] at hclear
    simp only [spans_append, spans_cons] at hord hclear
    exact hclear.touch_right hord htype

theorem touch_left (h : Good k (l ++ y :: x :: r))
    (hclear : Span.Clear (types (l ++ y :: x :: r)) x.lo x.hi x.type) (htype : y.type = x.type) :
    y.hi = x.lo := by
  have hord := h.ordered
  rw [types] at hclear
  simp only [spans_append, spans_cons] at hord hclear
  exact hclear.touch_left hord htype

/-- Merging around a segment that is clear of its type keeps the map. -/
theorem pmemMerge_good (h : Good k (l ++ x :: r))
    (hclear : Span.Clear (types (l ++ x :: r)) x.lo x.hi x.type) :
    Maps k (types (l ++ x :: r)) (l ++ x :: r) (pmemMerge (l ++ x :: r) l.length) := by
  have hright := touch_right h hclear
  rcases eq_nil_or_concat l with rfl | ⟨l, y, rfl⟩
  · rw [nil_append, length_nil, pmemMerge_nil]
    exact mergeRight_good h hright
  rw [concat_eq_append] at h hclear ⊢
  have hlist : l ++ [y] ++ x :: r = l ++ y :: x :: r := by simp
  have hlen : (l ++ [y]).length = l.length + 1 := by simp
  by_cases htype : x.type = y.type
  · -- the joined segment ends where `x` does
    rw [hlist] at h hclear ⊢
    rw [hlen, pmemMerge_cons, if_pos htype]
    have htouch : y.hi = x.lo := touch_left h hclear htype.symm
    have hjoin := good_join h htouch htype
    have hhi : (y.join x).hi = x.hi := hi_join htouch (h.fits x (by simp)).hi_lt
    have hmerge := mergeRight_good hjoin.good fun z hz hzt => by
      rw [hhi]
      exact hright z hz (hzt.trans htype.symm)
    rw [hjoin.types_eq] at hmerge
    exact hjoin.trans hmerge
  · have hmerge : pmemMerge (l ++ [y] ++ x :: r) (l ++ [y]).length =
        mergeRight (l ++ [y] ++ x :: r) (l ++ [y]).length := by
      rw [hlist, hlen, pmemMerge_cons, if_neg htype]
    rw [hmerge]
    exact mergeRight_good h hright

/-- A new segment with a type of its own is merged with its neighbours. -/
theorem placed_good {m : Nat → Option (BitVec 32)} (h : Good k (l ++ x :: r))
    (htypes : types (l ++ x :: r) = Span.update m x.lo x.hi x.type)
    (hclear : Span.Clear m x.lo x.hi x.type) : Maps k (Span.update m x.lo x.hi x.type) (l ++ x :: r)
      (pmemMerge (l ++ x :: r) l.length) := by
  have hmerge := pmemMerge_good h (by rw [htypes]; exact hclear.update)
  rwa [htypes] at hmerge

theorem pmemInsert_append : pmemInsert (l ++ r) l.length x = l ++ x :: r := by
  simp [pmemInsert]

theorem pmemInsert_behind : pmemInsert (l ++ s :: r) (l.length + 1) x = l ++ s :: x :: r := by
  have hlist : l ++ s :: r = (l ++ [s]) ++ r := by simp
  have hlen : l.length + 1 = (l ++ [s]).length := by simp
  rw [hlist, hlen, pmemInsert_append]
  simp

/-! ## Alignment -/

/-- An aligned number is not moved. -/
theorem align_eq_self {x : BitVec w} (hk : k < w) (h : 2 ^ k ∣ x.toNat) :
    align x (BitVec.ofNat w (2 ^ k)) = x := by
  apply BitVec.eq_of_toNat_eq
  have hpos : 0 < 2 ^ k := Nat.two_pow_pos k
  obtain ⟨q, hq⟩ := h
  -- `x` and `2 ^ w` are multiples, so that the rounding does not wrap
  have htop : x.toNat + 2 ^ k ≤ 2 ^ w := by
    have hw : 2 ^ w = 2 ^ k * 2 ^ (w - k) := by rw [← Nat.pow_add]; congr 1; omega
    have hlt : q < 2 ^ (w - k) := by
      have := x.isLt
      rw [hq, hw] at this
      exact Nat.lt_of_mul_lt_mul_left this
    calc x.toNat + 2 ^ k = 2 ^ k * (q + 1) := by rw [hq, Nat.mul_add, Nat.mul_one]
      _ ≤ 2 ^ k * 2 ^ (w - k) := Nat.mul_le_mul_left _ hlt
      _ = 2 ^ w := hw.symm
  rw [align, Word.toNat_align hk htop, hq, Nat.add_sub_assoc hpos, Nat.mul_add_div hpos,
    Nat.div_eq_of_lt (by omega), Nat.add_zero, Nat.mul_comm]

/-! ## Setting a range -/

/-- The range is not empty, aligned, and ends before the end of the address space. -/
@[mk_iff] structure RangeOk (k : Nat) (paddr size : BitVec w) : Prop where
  lo_dvd : 2 ^ k ∣ paddr.toNat
  size_dvd : 2 ^ k ∣ size.toNat
  pos : 0 < size.toNat
  hi_lt : paddr.toNat + size.toNat < 2 ^ w

instance (k : Nat) (paddr size : BitVec w) : Decidable (RangeOk k paddr size) :=
  decidable_of_iff' _ (rangeOk_iff k paddr size)

theorem RangeOk.fits {a sz : BitVec w} {v : BitVec 32} (h : RangeOk k a sz) :
    (⟨a, sz, v⟩ : Segment w).Fits k :=
  ⟨h.lo_dvd, h.size_dvd, h.hi_lt⟩

section Set

variable {a sz : BitVec w} {v : BitVec 32}

theorem Segment.Fits.hi_dvd (h : s.Fits k) : 2 ^ k ∣ s.hi := Nat.dvd_add h.lo_dvd h.size_dvd

/-- What is left of a segment between two addresses. -/
def rest (lo hi : BitVec w) (u : BitVec 32) : List (Segment w) :=
  if lo = hi then [] else [⟨lo, hi - lo, u⟩]

theorem spans_rest {lo hi : BitVec w} {u : BitVec 32} (h : lo ≤ hi) :
    spans (rest lo hi u) = Span.rest lo.toNat hi.toNat u := by
  have hle : lo.toNat ≤ hi.toNat := h
  unfold rest Span.rest
  split
  · rename_i heq
    rw [if_neg (by rw [heq]; exact Nat.lt_irrefl _), spans_nil]
  rename_i hne
  have hlt : lo.toNat < hi.toNat :=
    Nat.lt_of_le_of_ne hle fun heq => hne (BitVec.eq_of_toNat_eq heq)
  rw [if_pos hlt, spans_cons, spans_nil, Segment.span, Segment.lo, Segment.hi,
    BitVec.toNat_sub_of_le h, Nat.add_sub_cancel' hle]

theorem fits_rest {lo hi : BitVec w} {u : BitVec 32} (h : lo ≤ hi) (hlo : 2 ^ k ∣ lo.toNat)
    (hhi : 2 ^ k ∣ hi.toNat) : ∀ q ∈ rest lo hi u, q.Fits k := by
  intro q hq
  unfold rest at hq
  split at hq
  · cases hq
  have hsub : (hi - lo).toNat = hi.toNat - lo.toNat := BitVec.toNat_sub_of_le h
  rw [mem_singleton.mp hq]
  refine ⟨hlo, ?_, ?_⟩
  · rw [hsub]
    exact Nat.dvd_sub hhi hlo
  · rw [Segment.hi, hsub, Nat.add_sub_cancel' h]
    exact hi.isLt

/-- Unless the segment stays as it is, it is cut into what is before the range, the range and what
is behind it. -/
theorem setIn_eq (hsame : ¬(a = s.paddr ∧ sz = s.size ∧ s.type = v)) :
    setIn (l ++ s :: r) l.length a sz v =
      pmemMerge (l ++ rest s.paddr a s.type ++
        ⟨a, sz, v⟩ :: (rest (a + sz) (s.paddr + s.size) s.type ++ r))
        (l ++ rest s.paddr a s.type).length := by
  unfold setIn rest
  by_cases hstart : a = s.paddr
  · subst hstart
    by_cases hfull : sz = s.size
    · have htype : s.type ≠ v := fun hv => hsame ⟨rfl, hfull, hv⟩
      simp [hfull, htype]
    · have hsize : s.paddr + s.size - (s.paddr + sz) = s.size - sz := by grind
      simp [hfull, hsize, pmemInsert]
  · by_cases hend : a + sz = s.paddr + s.size
    · have hsize : s.size - sz = a - s.paddr := by grind
      simp [hstart, Ne.symm hstart, hend, hsize, pmemInsert_behind]
    have hsize : s.paddr + s.size - (a + sz) = s.size - sz - (a - s.paddr) := by grind
    have hsecond (b : Segment w) : pmemInsert (l ++ s :: ⟨a, sz, v⟩ :: r) (l.length + 2) b =
        l ++ s :: ⟨a, sz, v⟩ :: b :: r := by
      simpa using pmemInsert_behind (l := l ++ [s])
    simp [hstart, Ne.symm hstart, hend, hsize, pmemInsert_behind, hsecond]

/-- The segment was cut into `front`, the range and `back`; the range gets its type. -/
theorem carved_good {front back : List (Segment w)} (h : Good k (l ++ s :: r))
    (hrange : RangeOk k a sz)
    (hclear : Span.Clear (types (l ++ s :: r)) a.toNat (a.toNat + sz.toNat) v)
    (hparts : ∀ q ∈ front ++ back, q.Fits k)
    (hcut : Span.Ordered (spans (l ++ front ++ ⟨a, sz, v⟩ :: (back ++ r))) ∧
      types (l ++ front ++ ⟨a, sz, v⟩ :: (back ++ r)) =
        Span.update (types (l ++ s :: r)) a.toNat (a.toNat + sz.toNat) v) :
    Maps k (Span.update (types (l ++ s :: r)) a.toNat (a.toNat + sz.toNat) v) (l ++ r)
      (pmemMerge (l ++ front ++ ⟨a, sz, v⟩ :: (back ++ r)) (l ++ front).length) := by
  refine (placed_good ⟨hcut.1, fun t ht => ?_⟩ hcut.2 hclear).of_subset fun t ht => ?_
  rotate_left
  · rcases mem_append.mp ht with ht | ht <;> simp [ht]
  simp only [append_assoc, mem_append, mem_cons] at ht
  rcases ht with ht | ht | rfl | ht | ht
  · exact h.fits t (by simp [ht])
  · exact hparts t (by simp [ht])
  · exact hrange.fits
  · exact hparts t (by simp [ht])
  · exact h.fits t (by simp [ht])

variable (h : Good k (l ++ s :: r)) (hrange : RangeOk k a sz) (hlo : s.lo ≤ a.toNat)
  (hhi : a.toNat + sz.toNat ≤ s.hi)
  (hclear : Span.Clear (types (l ++ s :: r)) a.toNat (a.toNat + sz.toNat) v)

include h hrange hclear

include hlo hhi

/-- Setting a range inside a segment updates the map. -/
theorem setIn_good :
    Maps k (Span.update (types (l ++ s :: r)) a.toNat (a.toNat + sz.toNat) v) (l ++ r)
      (setIn (l ++ s :: r) l.length a sz v) := by
  have hfits : s.Fits k := h.fits s (by simp)
  have hord := h.ordered
  rw [spans_append, spans_cons] at hord
  by_cases hsame : a = s.paddr ∧ sz = s.size ∧ s.type = v
  · obtain ⟨rfl, rfl, rfl⟩ := hsame
    have hkeep : setIn (l ++ s :: r) l.length s.paddr s.size s.type = l ++ s :: r := by
      simp [setIn]
    have hvalue : Span.update (types (l ++ s :: r)) s.lo s.hi s.type = types (l ++ s :: r) :=
      Span.update_eq_self fun y hy₁ hy₂ =>
        Span.lookup_of_mem h.ordered (s := s.span) (by simp) ⟨hy₁, hy₂⟩
    rw [hkeep]
    refine (hvalue.symm ▸ Maps.refl h).of_subset fun t ht => ?_
    rcases mem_append.mp ht with ht | ht <;> simp [ht]
  · have hmid : (a + sz).toNat = a.toNat + sz.toNat := BitVec.toNat_add_of_lt hrange.hi_lt
    have hend : (s.paddr + s.size).toNat = s.hi := BitVec.toNat_add_of_lt hfits.hi_lt
    have hpos := hrange.pos
    have hback : a + sz ≤ s.paddr + s.size := by
      rw [BitVec.le_def, hmid, hend]
      exact hhi
    rw [setIn_eq hsame]
    refine carved_good h hrange hclear (fun q hq => ?_) ?_
    · rcases mem_append.mp hq with hq | hq
      · exact fits_rest hlo hfits.lo_dvd hrange.lo_dvd q hq
      refine fits_rest hback ?_ ?_ q hq
      · rw [hmid]
        exact Nat.dvd_add hrange.lo_dvd hrange.size_dvd
      · rw [hend]
        exact hfits.hi_dvd
    · simp only [types, spans_append, spans_cons, spans_rest hlo, spans_rest hback, hmid, hend]
      exact Span.carve hord hlo (Nat.lt_add_of_pos_right hpos) hhi

end Set

/-! ## The operations -/

theorem holds_iff {a sz : BitVec w} (hs : s.Fits k) (hrange : RangeOk k a sz) :
    s.holds a sz = true ↔ s.lo ≤ a.toNat ∧ a.toNat + sz.toNat ≤ s.hi := by
  rw [Segment.holds, Bool.and_eq_true, decide_eq_true_iff, decide_eq_true_iff, BitVec.le_def,
    BitVec.le_def, BitVec.toNat_add_of_lt hrange.hi_lt, BitVec.toNat_add_of_lt hs.hi_lt]
  rfl

/-- Two segments that share an address are the same. -/
theorem Good.eq_of_has {segs : List (Segment w)} (h : Good k segs) (hs : s ∈ segs) (ht : t ∈ segs)
    {n : Nat} (hsn : s.lo ≤ n ∧ n < s.hi) (htn : t.lo ≤ n ∧ n < t.hi) : s.span = t.span :=
  h.ordered.eq_of_has (mem_map_of_mem hs) (mem_map_of_mem ht) hsn htn

theorem Good.types_of_mem {segs : List (Segment w)} (h : Good k segs) (hs : s ∈ segs) {n : Nat}
    (hn : s.lo ≤ n ∧ n < s.hi) : types segs n = some s.type :=
  Span.lookup_of_mem h.ordered (mem_map_of_mem hs) hn

/-- The map is as it should be, for the minimum alignment `2 ^ k`. -/
structure Map.Ok (k : Nat) (p : Map w) : Prop where
  good : Good k p.segments
  minimum : p.minimumAlignment = BitVec.ofNat w (2 ^ k)

/-- The map's types are those of `p` with the range set. -/
structure Updates (k : Nat) (p : Map w) (lo hi : Nat) (v : BitVec 32) (q : Map w) : Prop where
  ok : q.Ok k
  types_eq : types q.segments = Span.update (types p.segments) lo hi v

section Operations

variable {p : Map w} {a sz : BitVec w} {v : BitVec 32} (hk : k < w) (hp : p.Ok k)
  (hrange : RangeOk k a sz)

include hk hp hrange

theorem pmemSetWhole_none
    (hnone : ¬∃ s ∈ p.segments, s.lo ≤ a.toNat ∧ a.toNat + sz.toNat ≤ s.hi) :
    pmemSetWhole p a sz v = (p, false) := by
  have hfind : p.segments.findIdx? (fun s => s.holds a sz) = none := by
    rw [List.findIdx?_eq_none_iff]
    intro s hs
    exact Bool.eq_false_iff.mpr
      fun hholds => hnone ⟨s, hs, (holds_iff (hp.good.fits s hs) hrange).mp hholds⟩
  unfold pmemSetWhole
  simp only [hp.minimum, align_eq_self hk hrange.lo_dvd, align_eq_self hk hrange.size_dvd, hfind]

variable (hclear : Span.Clear (types p.segments) a.toNat (a.toNat + sz.toNat) v)

include hclear

omit hk in
/-- What happens in the segment that has the range. -/
theorem set_at (hsplit : p.segments = l ++ s :: r)
    (hin : s.lo ≤ a.toNat ∧ a.toNat + sz.toNat ≤ s.hi) :
    Updates k p a.toNat (a.toNat + sz.toNat) v
        { p with segments := setIn p.segments l.length a sz v } ∧
      ∀ t ∈ p.segments, t.span ≠ s.span →
        ∃ t' ∈ setIn p.segments l.length a sz v, t'.lo ≤ t.lo ∧ t.hi ≤ t'.hi := by
  have hgood := hp.good
  rw [hsplit] at hgood hclear ⊢
  have hset := setIn_good hgood hrange hin.1 hin.2 hclear
  refine ⟨⟨⟨hset.good, hp.minimum⟩, ?_⟩, fun t ht hne => hset.covers t ?_⟩
  · rw [hset.types_eq, hsplit]
  simp only [mem_append, mem_cons] at ht ⊢
  rcases ht with ht | rfl | ht
  · exact .inl ht
  · exact absurd rfl hne
  · exact .inr ht

/-- A range inside a segment is set, and the other segments stay whole. -/
theorem pmemSetWhole_some (hs : s ∈ p.segments)
    (hin : s.lo ≤ a.toNat ∧ a.toNat + sz.toNat ≤ s.hi) :
    ∃ q, pmemSetWhole p a sz v = (q, true) ∧ Updates k p a.toNat (a.toNat + sz.toNat) v q ∧
      ∀ t ∈ p.segments, t.span ≠ s.span →
        ∃ t' ∈ q.segments, t'.lo ≤ t.lo ∧ t.hi ≤ t'.hi := by
  have hpos := hrange.pos
  cases hfind : p.segments.findIdx? (fun s => s.holds a sz) with
  | none =>
    have hfalse := List.findIdx?_eq_none_iff.mp hfind s hs
    rw [(holds_iff (hp.good.fits s hs) hrange).mpr hin] at hfalse
    cases hfalse
  | some i =>
    obtain ⟨l, u, r, hsplit, rfl, hholds, -⟩ := Lists.split_of_findIdx hfind
    have hu : u ∈ p.segments := by simp [hsplit]
    have huin := (holds_iff (hp.good.fits u hu) hrange).mp hholds
    have hspan : u.span = s.span := hp.good.eq_of_has hu hs ⟨huin.1, by omega⟩ ⟨hin.1, by omega⟩
    obtain ⟨hupd, hcovers⟩ := set_at hp hrange hclear hsplit huin
    refine ⟨_, ?_, hupd, fun t ht hne => hcovers t ht (hspan ▸ hne)⟩
    unfold pmemSetWhole
    simp only [hp.minimum, align_eq_self hk hrange.lo_dvd, align_eq_self hk hrange.size_dvd, hfind]

/-- If the segment with the start of the range ends inside it, the one right behind has the rest. -/
def SplitOk (segments : List (Segment w)) (lo hi : Nat) : Prop :=
  ∀ s ∈ segments, s.lo ≤ lo → lo < s.hi → s.hi < hi → ∃ t ∈ segments, s.hi = t.lo ∧ hi ≤ t.hi

instance (segments : List (Segment w)) (lo hi : Nat) : Decidable (SplitOk segments lo hi) :=
  inferInstanceAs (Decidable (∀ s ∈ segments, _ → _ → _ → ∃ t ∈ segments, _))

/-- The two halves of a range that lies in two segments. -/
theorem set_halves (hs : s ∈ p.segments) (ht : t ∈ p.segments)
    (hstart : s.lo ≤ a.toNat ∧ a.toNat < s.hi) (hend : s.hi < a.toNat + sz.toNat)
    (htouch : s.hi = t.lo) (hrest : a.toNat + sz.toNat ≤ t.hi) :
    ∃ q q', pmemSetWhole p a (s.paddr + s.size - a) v = (q, true) ∧
      pmemSetWhole q (s.paddr + s.size) (sz - (s.paddr + s.size - a)) v = (q', true) ∧
      Updates k p a.toNat (a.toNat + sz.toNat) v q' := by
  have hfits := hp.good.fits s hs
  have hsplit : (s.paddr + s.size).toNat = s.hi := BitVec.toNat_add_of_lt hfits.hi_lt
  have hfirst : (s.paddr + s.size - a).toNat = s.hi - a.toNat := by
    rw [BitVec.toNat_sub_of_le (BitVec.le_def.mpr (by omega)), hsplit]
  have hsecond : (sz - (s.paddr + s.size - a)).toNat = sz.toNat - (s.hi - a.toNat) := by
    rw [BitVec.toNat_sub_of_le (BitVec.le_def.mpr (by omega)), hfirst]
  have hdvd : 2 ^ k ∣ s.hi - a.toNat := Nat.dvd_sub hfits.hi_dvd hrange.lo_dvd
  have hmid : a.toNat + (s.hi - a.toNat) = s.hi := by omega
  have hlast : s.hi + (sz.toNat - (s.hi - a.toNat)) = a.toNat + sz.toNat := by omega
  have hrange₁ : RangeOk k a (s.paddr + s.size - a) := by
    refine ⟨hrange.lo_dvd, ?_, ?_, ?_⟩
    · rw [hfirst]
      exact hdvd
    · omega
    · rw [hfirst, hmid]
      exact hfits.hi_lt
  have hrange₂ : RangeOk k (s.paddr + s.size) (sz - (s.paddr + s.size - a)) := by
    refine ⟨?_, ?_, ?_, ?_⟩
    · rw [hsplit]
      exact hfits.hi_dvd
    · rw [hsecond]
      exact Nat.dvd_sub hrange.size_dvd hdvd
    · omega
    · rw [hsplit, hsecond, hlast]
      exact hrange.hi_lt
  have hmapped : types p.segments s.hi ≠ none := by
    rw [hp.good.types_of_mem ht ⟨by omega, by omega⟩]
    exact Option.some_ne_none _
  obtain ⟨q, hq, hupd, hcovers⟩ := pmemSetWhole_some hk hp hrange₁
    (by rw [hfirst, hmid]; exact hclear.first hmapped) hs
    ⟨hstart.1, Nat.le_of_eq (by rw [hfirst, hmid])⟩
  rw [hfirst, hmid] at hupd
  obtain ⟨t', ht', hlo', hhi'⟩ := hcovers t ht fun hspan => by
    have : t.lo = s.lo := congrArg Span.lo hspan
    omega
  obtain ⟨q', hq', hupd', -⟩ := pmemSetWhole_some hk hupd.ok hrange₂
    (by
      rw [hupd.types_eq, hsplit, hsecond, hlast]
      exact hclear.second hstart.2 hend.le)
    ht' ⟨by rw [hsplit, htouch]; exact hlo', by rw [hsplit, hsecond, hlast]; omega⟩
  refine ⟨q, q', hq, hq', hupd'.ok, ?_⟩
  rw [hupd'.types_eq, hupd.types_eq, hsplit, hsecond, hlast]
  exact Span.update_update (Nat.le_of_lt hstart.2) hend.le

/-- `pmem_set` fails without an effect, or sets the range. -/
theorem pmemSet_spec {split : Bool}
    (hsplit : split = true → SplitOk p.segments a.toNat (a.toNat + sz.toNat)) :
    pmemSet p a sz v split = (p, false) ∨
      ∃ q, pmemSet p a sz v split = (q, true) ∧ Updates k p a.toNat (a.toNat + sz.toNat) v q := by
  cases split with
  | false =>
    rw [show pmemSet p a sz v false = pmemSetWhole p a sz v from rfl]
    by_cases hin : ∃ s ∈ p.segments, s.lo ≤ a.toNat ∧ a.toNat + sz.toNat ≤ s.hi
    · obtain ⟨s, hs, hin⟩ := hin
      obtain ⟨q, hq, hupd, -⟩ := pmemSetWhole_some hk hp hrange hclear hs hin
      exact .inr ⟨q, hq, hupd⟩
    · exact .inl (pmemSetWhole_none hk hp hrange hin)
  | true =>
    unfold pmemSet
    simp only [Bool.not_true, Bool.false_eq_true, if_false, hp.minimum,
      align_eq_self hk hrange.lo_dvd, align_eq_self hk hrange.size_dvd]
    split
    · exact .inl rfl
    rename_i i hfind
    obtain ⟨l, s, r, hlist, rfl, hfound, -⟩ := Lists.split_of_findIdx hfind
    have hs : s ∈ p.segments := by simp [hlist]
    have hget : p.segments.getD l.length default = s := by simp [hlist]
    have hfits := hp.good.fits s hs
    simp only [hget]
    by_cases hholds : s.holds a sz = true
    · rw [if_pos hholds]
      have hin := (holds_iff hfits hrange).mp hholds
      have hupd := (set_at hp hrange hclear hlist hin).1
      rw [hp.minimum] at hupd
      exact .inr ⟨_, rfl, hupd⟩
    · rw [if_neg hholds]
      have hstart : s.lo ≤ a.toNat ∧ a.toNat < s.hi := by
        simpa [hholds, BitVec.le_def, BitVec.lt_def, BitVec.toNat_add_of_lt hfits.hi_lt,
          Segment.lo, Segment.hi] using hfound
      have hend : s.hi < a.toNat + sz.toNat := by
        have := mt (holds_iff hfits hrange).mpr hholds
        omega
      obtain ⟨t, ht, htouch, hrest⟩ := hsplit rfl s hs hstart.1 hstart.2 hend
      obtain ⟨q, q', hq, hq', hupd⟩ := set_halves hk hp hrange hclear hs ht hstart hend htouch hrest
      simp only [hq, hq']
      exact .inr ⟨q', rfl, hupd⟩

/-- `pmem_add` sets a range that touches no segment's addresses. -/
theorem pmemAdd_spec
    (hapart : ∀ s ∈ p.segments, s.hi ≤ a.toNat ∨ a.toNat + sz.toNat ≤ s.lo) :
    Updates k p a.toNat (a.toNat + sz.toNat) v (pmemAdd p a sz v) := by
  have hpos := hrange.pos
  suffices hplace : ∃ l r, p.segments = l ++ r ∧
      (p.segments.findIdx? fun s => a < s.paddr).getD p.segments.length = l.length ∧
      (∀ t ∈ l, t.hi ≤ a.toNat) ∧ ∀ t ∈ r, a.toNat + sz.toNat ≤ t.lo by
    obtain ⟨l, r, hlist, hlen, hl, hr⟩ := hplace
    have hord : Span.Ordered (spans l ++ (⟨a, sz, v⟩ : Segment w).span :: spans r) := by
      refine Span.ordered_middle.mpr ⟨?_, Nat.lt_add_of_pos_right hpos, ?_, ?_⟩
      · rw [← spans_append, ← hlist]
        exact hp.good.ordered
      · intro t ht
        obtain ⟨u, hu, rfl⟩ := mem_map.mp ht
        exact hl u hu
      · intro t ht
        obtain ⟨u, hu, rfl⟩ := mem_map.mp ht
        exact hr u hu
    have hgood : Good k (l ++ ⟨a, sz, v⟩ :: r) := by
      refine good_middle (by simpa using hord) hrange.fits fun t ht => hp.good.fits t ?_
      rw [hlist]
      exact ht
    have htypes : types (l ++ ⟨a, sz, v⟩ :: r) =
        Span.update (types p.segments) a.toNat (a.toNat + sz.toNat) v := by
      rw [types, types, hlist, spans_append, spans_append, spans_cons]
      exact Span.lookup_middle hord
    have hmerge := placed_good hgood htypes hclear
    have hadd : pmemAdd p a sz v =
        { p with segments := pmemMerge (l ++ ⟨a, sz, v⟩ :: r) l.length } := by
      unfold pmemAdd
      simp only [hp.minimum, align_eq_self hk hrange.lo_dvd, align_eq_self hk hrange.size_dvd, hlen]
      rw [hlist, pmemInsert_append]
    rw [hadd]
    exact ⟨⟨hmerge.good, hp.minimum⟩, hmerge.types_eq⟩
  have hbelow : ∀ t ∈ p.segments, ¬a < t.paddr → t.hi ≤ a.toNat := by
    intro t ht hlt
    have hle : t.lo ≤ a.toNat := by
      rw [BitVec.lt_def] at hlt
      exact Nat.le_of_not_lt hlt
    rcases hapart t ht with h | h
    · exact h
    · omega
  cases hfind : p.segments.findIdx? (fun s => a < s.paddr) with
  | none =>
    refine ⟨p.segments, [], by simp, rfl, fun t ht => hbelow t ht ?_, by simp⟩
    simpa using List.findIdx?_eq_none_iff.mp hfind t ht
  | some i =>
    obtain ⟨l, s, r, hlist, rfl, hfound, hpassed⟩ := Lists.split_of_findIdx hfind
    have habove : a.toNat + sz.toNat ≤ s.lo := by
      have hlt : a.toNat < s.lo := by simpa [BitVec.lt_def, Segment.lo] using hfound
      have hspan := hp.good.ordered.pos s.span (mem_map_of_mem (by simp [hlist]))
      rcases hapart s (by simp [hlist]) with h | h
      · simp only [Segment.span_lo, Segment.span_hi] at hspan
        omega
      · exact h
    refine ⟨l, s :: r, hlist, rfl, fun t ht => hbelow t (by simp [hlist, ht]) ?_, fun t ht => ?_⟩
    · simpa using hpassed t ht
    rcases mem_cons.mp ht with rfl | ht
    · exact habove
    have hord := hp.good.ordered
    rw [hlist, spans_append, spans_cons] at hord
    obtain ⟨-, hspan, -, hbehind⟩ := Span.ordered_middle.mp hord
    have hle : s.hi ≤ t.lo := hbehind t.span (mem_map_of_mem ht)
    simp only [Segment.span_lo, Segment.span_hi] at hspan
    omega

end Operations

/-! ## Allocation -/

/-- The highest multiple of twice the alignment at which so many bytes end in the segment. -/
def Segment.place (s : Segment w) (size align : BitVec w) : Nat :=
  (s.hi - size.toNat) / (2 * align.toNat) * (2 * align.toNat)

/-- In every segment of the type that is large enough, the last place for the bytes is a multiple
of the alignment, the segment goes down to a multiple of twice the alignment below it, which is
not null, and no segment of the new type lies beyond a gap. -/
@[mk_iff] structure AllocOk (k : Nat) (segments : List (Segment w)) (size : BitVec w)
    (fromType asType : BitVec 32) (align : BitVec w) : Prop where
  pow : ∃ j < w, align = BitVec.ofNat w (2 ^ j)
  size_dvd : 2 ^ k ∣ size.toNat
  pos : 0 < size.toNat
  aligned : ∀ s ∈ segments, s.type = fromType → size ≤ s.size → align.toNat ∣ s.hi - size.toNat
  room : ∀ s ∈ segments, s.type = fromType → size ≤ s.size →
    s.lo ≤ s.place size align ∧ 0 < s.place size align
  bridged : ∀ s ∈ segments, s.type = fromType → size ≤ s.size →
    Span.Bridged (spans segments) (s.place size align) (s.place size align + size.toNat) asType

instance (k : Nat) (segments : List (Segment w)) (size : BitVec w) (fromType asType : BitVec 32)
    (align : BitVec w) : Decidable (AllocOk k segments size fromType asType align) :=
  decidable_of_iff' _ (allocOk_iff k segments size fromType asType align)

/-- An allocation fails without an effect, or gives an aligned range of `fromType` away. -/
def AllocResult (k : Nat) (p : Map w) (size : BitVec w) (fromType asType : BitVec 32)
    (align : BitVec w) (result : Map w × BitVec w) : Prop :=
  result = (p, 0) ∨ result.2 ≠ 0 ∧ align.toNat ∣ result.2.toNat ∧
    (∀ n, result.2.toNat ≤ n → n < result.2.toNat + size.toNat →
      types p.segments n = some fromType) ∧
    Updates k p result.2.toNat (result.2.toNat + size.toNat) asType result.1

section Alloc

variable {p : Map w} {size align : BitVec w} {fromType asType : BitVec 32}

/-- Before the bit is cleared, the address is the last place in the segment. -/
theorem toNat_last (hs : s.Fits k) (hle : size ≤ s.size) :
    (s.paddr + (s.size - size)).toNat = s.hi - size.toNat := by
  have hle' : size.toNat ≤ s.size.toNat := BitVec.le_def.mp hle
  have hlt := hs.hi_lt
  rw [Segment.hi] at hlt
  have hsub : (s.size - size).toNat = s.size.toNat - size.toNat := BitVec.toNat_sub_of_le hle
  rw [BitVec.toNat_add_of_lt (by omega), hsub, Segment.hi]
  omega

variable (hk : k < w) (hp : p.Ok k) (hok : AllocOk k p.segments size fromType asType align)

include hk hp hok

omit hk in
/-- The address tried is such a place. -/
theorem toNat_top (hs : s ∈ p.segments) (htype : s.type = fromType) (hle : size ≤ s.size) :
    (s.top size align).toNat = s.place size align := by
  obtain ⟨j, hj, hpow⟩ := hok.pow
  have halign : align.toNat = 2 ^ j := by rw [hpow, Word.toNat_two_pow hj]
  have hlast := toNat_last (hp.good.fits s hs) hle
  have hdvd := hok.aligned s hs htype hle
  rw [halign, ← hlast] at hdvd
  rw [Segment.top, Segment.place, halign, ← hlast, ← Nat.pow_succ', hpow]
  exact Word.toNat_and_not_two_pow hdvd

/-- An address that is tried is taken. -/
theorem alloc_try (hs : s ∈ p.segments) (htype : s.type = fromType) (hle : size ≤ s.size) :
    ∃ q, pmemSet p (s.top size align) size asType false = (q, true) ∧
      AllocResult k p size fromType asType align (q, s.top size align) := by
  have hfits := hp.good.fits s hs
  have htop := toNat_top hp hok hs htype hle
  obtain ⟨hlo, hpos⟩ := hok.room s hs htype hle
  have hclear := (hok.bridged s hs htype hle).clear hp.good.ordered
  have hbelow : s.place size align ≤ s.hi - size.toNat := Nat.div_mul_le_self _ _
  have hsize : size.toNat ≤ s.hi := Nat.le_trans (BitVec.le_def.mp hle) (Nat.le_add_left _ _)
  have hhi : s.place size align + size.toNat ≤ s.hi := by omega
  have hrange : RangeOk k (s.top size align) size := by
    refine ⟨Word.dvd_toNat_and ?_, hok.size_dvd, hok.pos, ?_⟩
    · rw [toNat_last hfits hle]
      exact Nat.dvd_sub hfits.hi_dvd hok.size_dvd
    · rw [htop]
      exact Nat.lt_of_le_of_lt hhi hfits.hi_lt
  rw [← htop] at hclear hlo hhi hpos
  obtain ⟨q, hq, hupd, -⟩ := pmemSetWhole_some hk hp hrange hclear hs ⟨hlo, hhi⟩
  refine ⟨q, hq, .inr ⟨fun hzero => ?_, ?_, fun n hn hn' => ?_, hupd⟩⟩
  · rw [show s.top size align = 0 from hzero] at hpos
    exact absurd hpos (by simp)
  · rw [htop, Segment.place]
    exact Nat.dvd_mul_left_of_dvd (Nat.dvd_mul_left _ _) _
  · rw [hp.good.types_of_mem hs ⟨Nat.le_trans hlo hn, Nat.lt_of_lt_of_le hn' hhi⟩, htype]

theorem allocLoop_spec {i : Nat} (hi : i ≤ p.segments.length) :
    AllocResult k p size fromType asType align (allocLoop p size fromType asType align i) := by
  induction i with
  | zero => exact .inl rfl
  | succ i ih =>
    have hnext := ih (by omega)
    have hs : p.segments.getD i default ∈ p.segments := by
      rw [getD_eq_getElem?_getD, List.getElem?_eq_getElem hi]
      exact getElem_mem hi
    unfold allocLoop
    by_cases htype : (p.segments.getD i default).type = fromType
    · rw [if_neg (not_not_intro htype)]
      by_cases hle : size ≤ (p.segments.getD i default).size
      · rw [if_neg (BitVec.not_lt.mpr hle)]
        obtain ⟨q, hset, hresult⟩ := alloc_try hk hp hok hs htype hle
        simp only [hset]
        exact hresult
      · rw [if_pos (BitVec.not_le.mp hle)]
        exact hnext
    · rw [if_pos htype]
      exact hnext

theorem pmemAlloc_spec :
    AllocResult k p size fromType asType align (pmemAlloc p size fromType asType align) := by
  unfold pmemAlloc
  split
  · exact .inl rfl
  · exact allocLoop_spec hk hp hok le_rfl

end Alloc

/-! ## Runs -/

/-- The calls on a map. -/
inductive Event (w : Nat)
  | add (paddr size : BitVec w) (type : BitVec 32)
  | set (paddr size : BitVec w) (type : BitVec 32) (allowSplit : Bool)
  | alloc (size : BitVec w) (fromType asType : BitVec 32) (align : BitVec w)
  deriving DecidableEq, Repr

/-- A map, and the type last given to each address by a call that succeeded. -/
structure State (w : Nat) where
  map : Map w
  last : Nat → Option (BitVec 32)

def State.init (k : Nat) : State w := ⟨⟨[], BitVec.ofNat w (2 ^ k)⟩, fun _ => none⟩

namespace State

def give (st : State w) (map : Map w) (ok : Bool) (paddr size : BitVec w) (type : BitVec 32) :
    State w :=
  ⟨map, if ok then Span.update st.last paddr.toNat (paddr.toNat + size.toNat) type else st.last⟩

def step (st : State w) : Event w → State w
  | .add paddr size type => st.give (pmemAdd st.map paddr size type) true paddr size type
  | .set paddr size type allowSplit =>
      let result := pmemSet st.map paddr size type allowSplit
      st.give result.1 result.2 paddr size type
  | .alloc size fromType asType align =>
      let result := pmemAlloc st.map size fromType asType align
      st.give result.1 (result.2 != 0) result.2 size asType

end State

/-- Ranges are not empty and do not wrap, and alignments are powers of two. -/
def Event.Legal : Event w → Prop
  | .add paddr size _ | .set paddr size _ _ =>
      0 < size.toNat ∧ paddr.toNat + size.toNat < 2 ^ w
  | .alloc size _ _ align => 0 < size.toNat ∧ ∃ j < w, align = BitVec.ofNat w (2 ^ j)

/-- Where the map does what its callers expect: ranges are aligned, no segment of the same type
follows behind a gap, an added range is new, and a range to be split lies in two segments. -/
def Event.Ok (k : Nat) (st : State w) : Event w → Prop
  | .add paddr size type =>
      RangeOk k paddr size ∧
        (∀ s ∈ st.map.segments, s.hi ≤ paddr.toNat ∨ paddr.toNat + size.toNat ≤ s.lo) ∧
        Span.Bridged (spans st.map.segments) paddr.toNat (paddr.toNat + size.toNat) type
  | .set paddr size type allowSplit =>
      RangeOk k paddr size ∧
        (allowSplit = true →
          SplitOk st.map.segments paddr.toNat (paddr.toNat + size.toNat)) ∧
        Span.Bridged (spans st.map.segments) paddr.toNat (paddr.toNat + size.toNat) type
  | .alloc size fromType asType align => AllocOk k st.map.segments size fromType asType align

instance : ∀ e : Event w, Decidable e.Legal
  | .add .. | .set .. => inferInstanceAs (Decidable (_ ∧ _))
  | .alloc .. => inferInstanceAs (Decidable (_ ∧ ∃ j < w, _))

instance (k : Nat) (st : State w) : ∀ e : Event w, Decidable (e.Ok k st)
  | .add .. => inferInstanceAs (Decidable (_ ∧ (∀ s ∈ st.map.segments, _ ∨ _) ∧ _))
  | .set .. => inferInstanceAs (Decidable (_ ∧ (_ → _) ∧ _))
  | .alloc .. => inferInstanceAs (Decidable (AllocOk ..))

/-- The map is well formed and gives each address the type it got last. -/
structure State.Inv (k : Nat) (st : State w) : Prop where
  ok : st.map.Ok k
  last_eq : types st.map.segments = st.last

theorem State.init_inv : (State.init k : State w).Inv k :=
  ⟨⟨⟨⟨by simp [State.init], List.Pairwise.nil⟩, by simp [State.init]⟩, rfl⟩, rfl⟩

theorem State.Inv.give {st : State w} {q : Map w} {a sz : BitVec w} {v : BitVec 32}
    (h : st.Inv k) (hupd : Updates k st.map a.toNat (a.toNat + sz.toNat) v q) :
    (st.give q true a sz v).Inv k :=
  ⟨hupd.ok, by rw [State.give, if_pos rfl, ← h.last_eq]; exact hupd.types_eq⟩

theorem State.Inv.step (hk : k < w) {st : State w} {e : Event w} (h : st.Inv k)
    (he : e.Ok k st) : (st.step e).Inv k := by
  cases e with
  | add a sz v =>
    obtain ⟨hrange, hapart, hbridged⟩ := he
    exact h.give (pmemAdd_spec hk h.ok hrange (hbridged.clear h.ok.good.ordered) hapart)
  | set a sz v allowSplit =>
    obtain ⟨hrange, hsplit, hbridged⟩ := he
    have hclear := hbridged.clear h.ok.good.ordered
    rcases pmemSet_spec hk h.ok hrange hclear hsplit with hfail | ⟨q, hset, hupd⟩
    · simp only [State.step, hfail]
      exact h
    · simp only [State.step, hset]
      exact h.give hupd
  | alloc sz u v align =>
    rcases pmemAlloc_spec hk h.ok he with hfail | ⟨hne, -, -, hupd⟩
    · simp only [State.step, hfail, bne_self_eq_false]
      exact h
    · simp only [State.step, bne_iff_ne.mpr hne]
      exact h.give hupd

/-- In every run of calls that keep the conditions the segments stay sorted, disjoint and not
empty, each address has the type it got last, and an allocation fails without an effect or gives
away an aligned range of the type asked for. -/
theorem map_faithful (hk : k < w) {es : List (Event w)} {st : State w}
    (hrun : Run (Guarded (fun st e => e.Ok k st) fun u e v => u.step e = v) (State.init k) es st) :
    Span.Ordered (spans st.map.segments) ∧ types st.map.segments = st.last ∧
      ∀ size fromType asType align, AllocOk k st.map.segments size fromType asType align →
        AllocResult k st.map size fromType asType align
          (pmemAlloc st.map size fromType asType align) := by
  have hinv : st.Inv k := hrun.invariant State.init_inv fun u e v hu hstep => by
    obtain ⟨hok, rfl⟩ := hstep
    exact hu.step hk hok
  exact ⟨hinv.ok.good.ordered, hinv.last_eq, fun _ _ _ _ hok => pmemAlloc_spec hk hinv.ok hok⟩

/-- Two ranges of memory that touch, a part of them reserved, and pages allocated at the top. -/
def bootEvents : List (Event 64) :=
  [.add 0x80000000 0x100000 7, .add 0x80100000 0x100000 7, .set 0x80000000 0x2000 1 false,
    .alloc 0x1000 7 2 0x1000, .set 0x80001000 0x2000 3 true, .alloc 0x200000 7 2 0x1000]

def bootState : State 64 := bootEvents.foldl State.step (State.init 12)

theorem map_faithful_boot : Span.Ordered (spans bootState.map.segments) ∧
      types bootState.map.segments = bootState.last ∧ bootState.map.segments.length = 5 ∧
      AllocResult 12 bootState.map 0x2000 7 2 0x2000
        (pmemAlloc bootState.map 0x2000 7 2 0x2000) := by
  have hrun : Run (Guarded (fun st e => Event.Ok 12 st e) fun u e v => u.step e = v)
      (State.init 12) bootEvents bootState := by
    refine (guarded_run_foldl (fun st e => decide (Event.Ok 12 st e)) State.step _ bootEvents
      (by decide +kernel)).mono fun u e v h => ?_
    exact ⟨of_decide_eq_true h.1, h.2⟩
  obtain ⟨hordered, hlast, halloc⟩ := map_faithful (by decide) hrun
  exact ⟨hordered, hlast, by decide +kernel, halloc _ _ _ _ (by decide +kernel)⟩

/-- Two ranges of one type with a gap between them. -/
def gapEvents : List (Event 64) := [.add 0x1000 0x1000 1, .add 0x3000 0x1000 1]

/-- One range, that starts at no multiple of 2 MB. -/
def rangeEvents : List (Event 64) := [.add 0x1000 0x300000 1]

/-- The gap is taken for memory and the second range is lost; and an allocation that asks for
a multiple of 2 MB gets an address that is none. -/
theorem map_unfaithful : (∀ e ∈ gapEvents ++ rangeEvents ++ [.alloc 0x1000 1 2 0x200000], e.Legal) ∧
      types (gapEvents.foldl State.step (State.init 12)).map.segments 0x2000 = some 1 ∧
      (gapEvents.foldl State.step (State.init 12)).last 0x2000 = none ∧
      types (gapEvents.foldl State.step (State.init 12)).map.segments 0x3000 = none ∧
      (gapEvents.foldl State.step (State.init 12)).last 0x3000 = some 1 ∧
      (pmemAlloc (rangeEvents.foldl State.step (State.init 12)).map 0x1000 1 2 0x200000).2 =
        0x100000 := by
  decide +kernel

end Mios.Pmem
