import Mios.Lib.Ring
import Mios.Tcp.Window
import Mios.Tcp.Micro

/-! The receiver. The bytes of the peer go through the RX FIFO to the application in order; a FIN
takes a place in the FIFO and in the sequence space, and may only do so behind all bytes. -/

namespace Mios.Tcp

open Lib Relation List Option Conn

variable {L : List Irregular} {e : Event} {t t' : Tcb} {g : Seg} {out : List Sent} {c c' : Conn}
  {B : List Byte} {n : SeqNo}

/-! ## The FIFO as a ring -/

/-- The copies of a FIFO go around its end, but not exactly once. -/
theorem wtolMemcpy_eq (m : Nat → Byte) (fifo : Nat) {length size : Nat} {offset : SeqNo}
    (h : length < size ∨ offset.toNat % size = 0 ∧ length ≤ size) (hsize : 0 < size) :
    wtolMemcpy m fifo length offset size = Ring.read m fifo size offset.toNat length := by
  have hlt := Nat.mod_lt offset.toNat hsize
  rw [wtolMemcpy]
  rcases Nat.lt_or_ge (offset.toNat % size + length) size with hin | hout
  · rw [Nat.mod_eq_of_lt hin, if_pos (Nat.le_add_right _ _), Ring.read_eq_of_le (Nat.le_of_lt hin)]
  rcases h with h | ⟨hzero, hle⟩
  · have hstop : (offset.toNat % size + length) % size = offset.toNat % size + length - size := by
      rw [Nat.mod_eq_sub_mod hout, Nat.mod_eq_of_lt (by omega)]
    have hnone : length - (size - offset.toNat % size) -
        (offset.toNat % size + length - size) = 0 := by omega
    rw [hstop, if_neg (by omega), hnone, replicate_zero, append_nil,
      Ring.read_eq_of_ge (by omega) hout hsize]
  · rw [hzero, if_pos (Nat.zero_le _), Ring.read_eq_of_le (by omega), hzero]

theorem ltowMemcpy_eq (m : Nat → Byte) (fifo : Nat) {src : List Byte} {size : Nat} {offset : SeqNo}
    (h : src.length < size ∨ offset.toNat % size = 0 ∧ src.length ≤ size) (hsize : 0 < size) :
    ltowMemcpy m fifo src offset size = Ring.write m fifo size offset.toNat src := by
  have hlt := Nat.mod_lt offset.toNat hsize
  rw [ltowMemcpy, Ring.write]
  rcases Nat.lt_or_ge (offset.toNat % size + src.length) size with hin | hout
  · rw [Nat.mod_eq_of_lt hin, if_pos (Nat.le_add_right _ _), if_pos (Nat.le_of_lt hin)]
  rcases h with h | ⟨hzero, hle⟩
  · have hstop : (offset.toNat % size + src.length) % size =
        offset.toNat % size + src.length - size := by
      rw [Nat.mod_eq_sub_mod hout, Nat.mod_eq_of_lt (by omega)]
    rw [hstop, if_neg (by omega)]
    split
    · -- up to the end and no further
      rw [take_of_length_le (by omega), drop_eq_nil_of_le (by omega), take_nil,
        Mem.write_nil]
    · have hrest : (src.drop (size - offset.toNat % size)).length ≤
          offset.toNat % size + src.length - size := by
        rw [length_drop]
        omega
      rw [take_of_length_le hrest]
  · rw [hzero, if_pos (Nat.zero_le _), if_pos (by omega)]

/-- Copies of `length` bytes are those of a ring, whatever the memory holds. -/
structure RingCopies (fifo size length : Nat) (offset : SeqNo) : Prop where
  wtol : ∀ m, wtolMemcpy m fifo length offset size =
    (List.range length).map fun i => m (fifo + (offset.toNat + i) % size)
  ltow : ∀ m src i, src.length = length → i < length →
    src[i]? = some (ltowMemcpy m fifo src offset size (fifo + (offset.toNat + i) % size))
  frame : ∀ m src a, src.length = length → (∀ i < length, a ≠ fifo + (offset.toNat + i) % size) →
    ltowMemcpy m fifo src offset size a = m a
  back : ∀ m src, src.length = length →
    wtolMemcpy (ltowMemcpy m fifo src offset size) fifo length offset size = src
  forth : ∀ m, ltowMemcpy m fifo (wtolMemcpy m fifo length offset size) offset size = m

theorem ringCopies_of {fifo size length : Nat} {offset : SeqNo}
    (h : length < size ∨ offset.toNat % size = 0 ∧ length ≤ size) (hsize : 0 < size) :
    RingCopies fifo size length offset := by
  have hle : length ≤ size := by omega
  have hread m := wtolMemcpy_eq m fifo h hsize
  have hwrite m (src : List Byte) (hsrc : src.length = length) : ltowMemcpy m fifo src offset size =
      Ring.write m fifo size offset.toNat src := ltowMemcpy_eq m fifo (hsrc ▸ h) hsize
  have hcases m (src : List Byte) a (hsrc : src.length = length) := hwrite m src hsrc ▸
    Ring.write_cases m fifo offset.toNat a (hsrc.trans_le hle) hsize
  refine ⟨hread, fun m src i hsrc hi => ?_, fun m src a hsrc hne => ?_, fun m src hsrc => ?_,
    fun m => funext fun a => ?_⟩
  · rw [hwrite m src hsrc, Ring.write_apply (by omega) (by omega),
      List.getElem?_eq_getElem (by omega), getD_some]
  · rcases hcases m src a hsrc with ⟨k, hak, hk⟩ | h
    · exact absurd hak (hne k (hsrc ▸ (List.getElem?_eq_some_iff.mp hk).1))
    · exact h
  · have hback : Ring.read (Ring.write m fifo size (offset.toNat + 0) src) fifo size offset.toNat
        (0 + src.length) = _ := Ring.read_write_behind (by omega)
    rw [hread, hwrite m src hsrc, ← hsrc]
    simpa using hback
  · have hlen : (wtolMemcpy m fifo length offset size).length = length := by
      rw [hread, Ring.length_read]
    rcases hcases m _ a hlen with ⟨k, hak, hk⟩ | h
    · have hlt := hlen ▸ (List.getElem?_eq_some_iff.mp hk).1
      rw [hread, Ring.getElem?_read hlt, ← hak] at hk
      rw [hread]
      exact (Option.some.inj hk).symm
    · exact h

/-- The copies are those of a ring unless they go all around it from within. -/
theorem ringCopies_iff (fifo k length : Nat) (offset : SeqNo) (hlen : length ≤ 2 ^ k) :
    RingCopies fifo (2 ^ k) length offset ↔ length < 2 ^ k ∨ offset.toNat % 2 ^ k = 0 := by
  have hsize : 0 < 2 ^ k := Nat.two_pow_pos k
  have hlt := Nat.mod_lt offset.toNat hsize
  refine ⟨fun h => ?_, fun h => ringCopies_of (by omega) hsize⟩
  by_contra hnot
  -- the byte behind the ring is copied for the first one
  have hall : length = 2 ^ k := by omega
  have hcopy := congrArg (·[2 ^ k - offset.toNat % 2 ^ k]?)
    (h.wtol fun a => if a = fifo then 1 else 0)
  have hpos : (offset.toNat + (2 ^ k - offset.toNat % 2 ^ k)) % 2 ^ k = 0 := by
    rw [← Nat.mod_add_mod, Nat.add_sub_cancel' hlt.le, Nat.mod_self]
  simp only [wtolMemcpy, hall, Nat.add_mod_right, Nat.mod_mod, le_refl, if_true] at hcopy
  rw [Mem.getElem?_read (by omega), List.getElem?_map, List.getElem?_range (by omega),
    map_some, hpos, if_neg (by omega), if_pos (Nat.add_zero _)] at hcopy
  cases hcopy

theorem ringCopies_around : 3 ≤ 2 ^ 2 ∧ RingCopies 0 (2 ^ 2) 3 2 :=
  ⟨by decide, (ringCopies_iff 0 2 3 2 (by decide)).mpr (.inl (by decide))⟩

theorem ringCopies_full : ¬ RingCopies 0 4 4 1 := by
  intro h
  have hcopy := h.wtol fun a => BitVec.ofNat 8 a
  revert hcopy
  decide

/-- The FIN in the RX FIFO. -/
def rxFin (t : Tcb) : Nat := if t.finReceived then 1 else 0

/-- What the application has not yet read. -/
def rxBytes (t : Tcb) : List Byte :=
  Ring.read t.buffer t.txfifoSize.val t.rxfifoSize.val t.rcv.rdptr.toNat
    ((rxfifoUsed t).toNat - rxFin t)

theorem rxFin_of_false (h : t.finReceived = false) : rxFin t = 0 := by
  rw [rxFin, h]
  rfl

theorem rxFin_of_true (h : t.finReceived = true) : rxFin t = 1 := by
  rw [rxFin, h, if_pos rfl]

theorem length_rxBytes (t : Tcb) : (rxBytes t).length = (rxfifoUsed t).toNat - rxFin t :=
  Ring.length_read

/-- The part of the block that the receiver looks at. -/
structure SameRx (t t' : Tcb) : Prop where
  rcv : t'.rcv = t.rcv
  finReceived : t'.finReceived = t.finReceived
  txfifoSize : t'.txfifoSize = t.txfifoSize
  rxfifoSize : t'.rxfifoSize = t.rxfifoSize
  buffer : ∀ a, t.txfifoSize.val ≤ a → t'.buffer a = t.buffer a

/-- The update of a field that the receiver does not look at. -/
theorem SameRx.frame (rcv : t'.rcv = t.rcv := by rfl)
    (fin : t'.finReceived = t.finReceived := by rfl)
    (tx : t'.txfifoSize = t.txfifoSize := by rfl) (rx : t'.rxfifoSize = t.rxfifoSize := by rfl)
    (buffer : t'.buffer = t.buffer := by rfl) : SameRx t t' :=
  ⟨rcv, fin, tx, rx, fun _ _ => by rw [buffer]⟩

theorem Same.sameRx (h : Same t t') : SameRx t t' :=
  { h with buffer := fun _ _ => by rw [h.buffer] }

theorem SameRx.used (h : SameRx t t') : rxfifoUsed t' = rxfifoUsed t := by
  rw [rxfifoUsed, rxfifoUsed, h.rcv]

theorem SameRx.fin (h : SameRx t t') : rxFin t' = rxFin t := by
  rw [rxFin, rxFin, h.finReceived]

theorem SameRx.bytes (h : SameRx t t') : rxBytes t' = rxBytes t := by
  rw [rxBytes, rxBytes, h.used, h.fin, h.rcv, h.txfifoSize, h.rxfifoSize]
  exact Ring.read_congr t.rxfifoSize.pos fun a ha _ => h.buffer a ha

/-- Positions in a FIFO, whose size divides the size of the sequence space. -/
theorem FifoSize.add_mod (s : FifoSize) (n : SeqNo) (k : Nat) :
    (n + BitVec.ofNat 32 k).toNat % s.val = (n.toNat + k) % s.val := by
  have hmod : (n + BitVec.ofNat 32 k).toNat = (n.toNat + k) % 4294967296 := by
    rw [BitVec.toNat_add, BitVec.toNat_ofNat]
    exact (Nat.add_mod_mod _ _ _)
  rw [hmod, Nat.mod_mod_of_dvd _ s.pow2]

theorem nxt_eq_rdptr_add (t : Tcb) :
    t.rcv.nxt = t.rcv.rdptr + BitVec.ofNat 32 (rxfifoUsed t).toNat := by
  rw [rxfifoUsed]
  bv_omega

/-- An empty FIFO. -/
theorem rxBytes_of_nxt (h : t.rcv.nxt = t.rcv.rdptr) :
    (rxfifoUsed t).toNat = 0 ∧ rxBytes t = [] := by
  have hzero : (rxfifoUsed t).toNat = 0 := by
    rw [rxfifoUsed, h]
    exact Seq.dist_self _
  rw [rxBytes, hzero, Nat.zero_sub, Ring.read_zero]
  exact ⟨rfl, rfl⟩

theorem rxfifoAvail_toNat (h : (rxfifoUsed t).toNat ≤ t.rxfifoSize.val) :
    (rxfifoAvail t).toNat = t.rxfifoSize.val - (rxfifoUsed t).toNat := by
  have hval : (BitVec.ofNat 32 t.rxfifoSize.val).toNat = t.rxfifoSize.val :=
    Nat.mod_eq_of_lt t.rxfifoSize.small
  rw [rxfifoAvail, BitVec.toNat_sub_of_le (by rw [BitVec.le_def, hval]; exact h), hval]

/-- One piece of data is stored. -/
def storePiece (t : Tcb) (p : List Byte) : Tcb :=
  { t with
    buffer := ltowMemcpy t.buffer t.txfifoSize.val p t.rcv.nxt t.rxfifoSize.val
    rcv := { t.rcv with nxt := t.rcv.nxt + BitVec.ofNat 32 p.length } }

variable {o : InputSupply} {k : Nat} {r : Reader}

theorem used_add (hrd : t'.rcv.rdptr = t.rcv.rdptr)
    (hnxt : t'.rcv.nxt = t.rcv.nxt + BitVec.ofNat 32 k)
    (h : (rxfifoUsed t).toNat + k ≤ t.rxfifoSize.val) :
    (rxfifoUsed t').toNat = (rxfifoUsed t).toNat + k := by
  have hsmall := t.rxfifoSize.small
  rw [rxfifoUsed, hrd, hnxt]
  rw [rxfifoUsed] at h ⊢
  exact Seq.dist_add_ofNat (by omega)

theorem storePiece_bytes {p : List Byte} (hfin : t.finReceived = false)
    (hroom : (rxfifoUsed t).toNat + p.length ≤ t.rxfifoSize.val)
    (hring : p.length < t.rxfifoSize.val ∨ t.rcv.nxt.toNat % t.rxfifoSize.val = 0) :
    rxBytes (storePiece t p) = rxBytes t ++ p ∧
      (rxfifoUsed (storePiece t p)).toNat = (rxfifoUsed t).toNat + p.length := by
  have hsize := t.rxfifoSize.pos
  have hused : (rxfifoUsed (storePiece t p)).toNat = (rxfifoUsed t).toNat + p.length :=
    used_add rfl rfl hroom
  have hzero := rxFin_of_false hfin
  have hzero' : rxFin (storePiece t p) = 0 := hzero
  have hpos : t.rcv.nxt.toNat % t.rxfifoSize.val =
      (t.rcv.rdptr.toNat + (rxfifoUsed t).toNat) % t.rxfifoSize.val := by
    rw [← t.rxfifoSize.add_mod, ← nxt_eq_rdptr_add]
  refine ⟨?_, hused⟩
  have hcopy : ltowMemcpy t.buffer t.txfifoSize.val p t.rcv.nxt t.rxfifoSize.val =
      Ring.write t.buffer t.txfifoSize.val t.rxfifoSize.val
        (t.rcv.rdptr.toNat + (rxfifoUsed t).toNat) p := by
    rw [ltowMemcpy_eq _ _ (hring.imp_right fun h => ⟨h, by omega⟩) hsize, Ring.write_congr_mod hpos]
  rw [rxBytes, rxBytes, hused, hzero, hzero', Nat.sub_zero, Nat.sub_zero]
  show Ring.read (ltowMemcpy t.buffer t.txfifoSize.val p t.rcv.nxt t.rxfifoSize.val)
    t.txfifoSize.val t.rxfifoSize.val t.rcv.rdptr.toNat _ = _
  rw [hcopy, Ring.read_write_behind hroom]

/-- All data of a segment is stored behind what is there. -/
theorem storeData_bytes {data : List (List Byte)} (hfin : t.finReceived = false)
    (hroom : (rxfifoUsed t).toNat + data.flatten.length ≤ t.rxfifoSize.val)
    (hring : t.rcv.nxt.toNat % t.rxfifoSize.val = 0 ∨ ∀ p ∈ data, p.length < t.rxfifoSize.val) :
    rxBytes (storeData t data) = rxBytes t ++ data.flatten := by
  induction data generalizing t with
  | nil => rw [storeData, flatten_nil, append_nil]
  | cons p rest ih =>
    rw [flatten_cons, length_append] at hroom
    have hone : p.length < t.rxfifoSize.val ∨ t.rcv.nxt.toNat % t.rxfifoSize.val = 0 := by
      rcases hring with hring | hring
      · exact .inr hring
      · exact .inl (hring p (.head _))
    obtain ⟨hbytes, hused⟩ := storePiece_bytes hfin (by omega) hone
    have hrest := ih (t := storePiece t p) hfin ?_ ?_
    · show rxBytes (storeData (storePiece t p) rest) = _
      rw [hrest, hbytes, flatten_cons, append_assoc]
    · rw [hused]
      show _ ≤ t.rxfifoSize.val
      omega
    · -- behind a first piece there is no room for a whole ring
      show (t.rcv.nxt + BitVec.ofNat 32 p.length).toNat % t.rxfifoSize.val = 0 ∨
        ∀ q ∈ rest, q.length < t.rxfifoSize.val
      rcases hring with hring | hring
      · by_cases hp : p.length = 0
        · left
          rw [hp, BitVec.add_zero]
          exact hring
        · right
          intro q hq
          have hle : q.length ≤ rest.flatten.length :=
            List.Sublist.length_le (sublist_flatten_of_mem hq)
          omega
      · exact .inr fun q hq => hring q (mem_cons_of_mem p hq)

/-! ## Moves of the receiver -/

/-- The SYN of the peer is heard. -/
structure HearsSyn (e : Event) (t t' : Tcb) (g : Seg) : Prop where
  event : ∃ o, e = .input g o
  state : t.state = .synSent
  state' : t'.state ≠ .synSent
  syn : has g.flg flagSyn = true
  same : SameRx { t with rcv := ⟨g.seq + 1, g.seq + 1⟩ } t'

/-- The data of a segment is stored. -/
structure Stores (e : Event) (t t' : Tcb) (g : Seg) : Prop where
  event : ∃ o, e = .input g o
  state : storesData t.state = true
  ne : g.len ≠ 0
  avail : g.len ≤ (rxfifoAvail t).toNat
  noSyn : has g.flg flagSyn = false
  seq : g.seq = t.rcv.nxt
  ring : t.rcv.nxt.toNat % t.rxfifoSize.val = 0 ∨ ∀ p ∈ g.data, p.length < t.rxfifoSize.val
  tcb : t' = storeData t g.data

/-- The FIN of a segment takes its place. -/
structure TakesFin (e : Event) (t t' : Tcb) (g : Seg) : Prop where
  event : ∃ o, e = .input g o
  fin : has g.flg flagFin = true
  state : t.state ≠ .closed ∧ t.state ≠ .synSent
  noSyn : has g.flg flagSyn = false
  seq : t.rcv.nxt = g.seq + BitVec.ofNat 32 g.len
  room : 1 ≤ (rxfifoAvail t).toNat
  tcb : t' = { t with finReceived := true, rcv := { t.rcv with nxt := t.rcv.nxt + 1 } }

/-- A connection without a peer gets none, and one with a peer keeps it. -/
abbrev Stays (s s' : State) : Prop :=
  (s = .synSent ∨ s = .closed → s' = .synSent ∨ s' = .closed) ∧ (s ≠ .synSent → s' ≠ .synSent)

theorem Follows.stays {s s' : State} (h : Follows s s') : Stays s s' := by
  cases h with
  | stay => exact ⟨id, id⟩
  | close => exact ⟨fun _ => .inr rfl, fun _ => by decide⟩
  | _ => decide

/-- What a move does to the receiver. -/
inductive RxMove (e : Event) (t t' : Tcb) : Prop
  | same (h : SameRx t t') (hstate : Stays t.state t'.state)
  | heard {g : Seg} (h : HearsSyn e t t' g)
  | store {g : Seg} (h : Stores e t t' g)
  | fin {g : Seg} (h : TakesFin e t t' g)

theorem RxMove.keep (h : SameRx t t') (hs : t'.state = t.state) : RxMove e t t' :=
  .same h (by rw [hs]; exact ⟨id, id⟩)

/-- From one open state to another. -/
theorem RxMove.opened {s : State} (s' : State) (h : SameRx t t') (hs : t.state = s)
    (hs' : t'.state = s') (hstate : Stays s s') : RxMove e t t' := by
  subst hs hs'
  exact .same h hstate

/-- The window of a segment is no larger than the room behind what it acknowledges. -/
def Offer (t : Tcb) (s : Sent) : Prop :=
  s.wnd = 0 ∨ s.ack = t.rcv.nxt ∧ s.wnd ≤ (rxfifoAvail t).toNat

theorem offer_output (flg : BitVec 8) (seq : SeqNo) (payload : List Byte)
    (hrcv : t'.rcv = t.rcv) (hsize : t'.rxfifoSize = t.rxfifoSize) :
    Offer t' (tcpOutputTcb t flg seq payload) := by
  refine .inr ⟨by rw [hrcv]; rfl, ?_⟩
  have havail : rxfifoAvail t' = rxfifoAvail t := by
    rw [rxfifoAvail, rxfifoAvail, rxfifoUsed, rxfifoUsed, hrcv, hsize]
  rw [havail]
  exact Nat.min_le_left _ _

theorem written_sameRx {src : List Byte} (hused : (txfifoUsed t).toNat ≤ t.txfifoSize.val)
    (havail : src.length ≤ (txfifoAvail t).toNat)
    (hring : t.snd.wrptr.toNat % t.txfifoSize.val = 0 ∨ src.length < t.txfifoSize.val) :
    SameRx t (written t src) := by
  have hlen : src.length ≤ t.txfifoSize.val := by
    rw [txfifoAvail_toNat hused] at havail
    omega
  refine ⟨rfl, rfl, rfl, rfl, fun a ha => ?_⟩
  show ltowMemcpy t.buffer 0 src t.snd.wrptr t.txfifoSize.val a = t.buffer a
  rw [ltowMemcpy_eq _ _ (hring.symm.imp_right fun h => ⟨h, hlen⟩) t.txfifoSize.pos]
  exact Ring.write_outside hlen t.txfifoSize.pos (.inr (by omega))

theorem SameRx.after {u : Tcb} (h' : SameRx t' u) (h : SameRx t t') : SameRx t u :=
  ⟨h'.rcv.trans h.rcv, h'.finReceived.trans h.finReceived, h'.txfifoSize.trans h.txfifoSize,
    h'.rxfifoSize.trans h.rxfifoSize, fun a ha => by
      rw [h'.buffer a (by rw [h.txfifoSize]; exact ha), h.buffer a ha]⟩

theorem Emits.sameRx (h : Emits t t') : SameRx t t' := by
  obtain ⟨n, d, rfl, -⟩ := h
  exact .frame

theorem eq_of_mem_output {b : Supply} {s s' : Sent} (h : s ∈ (output t b s').out) : s = s' := by
  rw [output] at h
  split at h
  · exact mem_singleton.mp h
  · cases h

/-- What `tcp_emit` sends has the window of the block. -/
theorem tcpEmit_offers {b : Option Supply} {seq : SeqNo} {genAck : Bool}
    (hrcv : t'.rcv = t.rcv) (hsize : t'.rxfifoSize = t.rxfifoSize) :
    ∀ s ∈ (tcpEmit t b seq genAck).out, Offer t' s := by
  intro s hs
  cases b with
  | none => cases hs
  | some b =>
    generalize hr : tcpEmit t (some b) seq genAck = r at hs
    cases tcpEmit_case hr with
    | idle => cases hs
    | syn | ack | fin =>
      rw [eq_of_mem_output hs]
      exact offer_output _ _ _ hrcv hsize
    | data =>
      have hout (u : Tcb) (bytes : Nat) : (emitData u b seq bytes).out = (output u b
          (tcpOutputTcb u (flagPsh ||| flagAck) seq
            (copyData u.buffer u.txfifoSize.val b.more firstUsed bytes 20 seq))).out := by
        simp only [emitData]
        split
        · rfl
        · split <;> rfl
      rw [hout] at hs
      rw [eq_of_mem_output hs]
      exact offer_output _ _ _ hrcv hsize

theorem synInSynSent_rx (hack : ¬ has g.flg flagAck = true) (b : Supply) :
    SameRx { t with rcv := ⟨g.seq + 1, g.seq + 1⟩ } (synInSynSent t g b).1 ∧
      (synInSynSent t g b).1.state ≠ .synSent ∧
      ∀ s ∈ (synInSynSent t g b).2, Offer (synInSynSent t g b).1 s := by
  simp only [synInSynSent, if_neg hack, tcpSendSyn]
  split
  · have hsame := (tcpEmit_emits { t with
      state := .established
      rcv := ⟨g.seq + 1, g.seq + 1⟩
      snd := { t.snd with wnd := g.wnd.setWidth 32, wl1 := g.seq, wl2 := g.ack } }
      (some b) t.snd.nxt true)
    refine ⟨hsame.sameRx.after .frame, ?_, tcpEmit_offers hsame.sameRx.rcv hsame.sameRx.rxfifoSize⟩
    rw [hsame.onlyNxt.state]
    exact fun h => by cases h
  · have hsame := (tcpEmit_emits { t with
      rtxTimer := t.rtxTimer || t.snd.una == t.snd.nxt
      pendingSyn := flagSyn ||| flagAck
      rcv := ⟨g.seq + 1, g.seq + 1⟩
      snd := { t.snd with
        nxt := t.snd.nxt + 1, wnd := g.wnd.setWidth 32, wl1 := g.seq, wl2 := g.ack } }
      (some b) (t.snd.nxt + 1) false).sameRx
    exact ⟨{ hsame.after .frame with }, (fun h => by cases h), tcpEmit_offers hsame.rcv hsame.rxfifoSize⟩

theorem afterFin_sameRx : SameRx t (afterFin t g) := by
  unfold afterFin
  repeat' split
  all_goals exact .frame

/-- What of the irregular matters to the receiver. -/
def recvIrregular : List Irregular := [.overfull, .finRefused, .wholeRing]

theorem OtherMove.rx (h : OtherMove recvIrregular e t t') : RxMove e t t' := by
  have hstate := h.sameTx.follows.stays
  cases h with
  | quiet h => exact .same h.sameRx hstate
  | arm | finAcked | lastAck | abort | expire => exact .same .frame hstate
  | store he hs hne havail hsyn hseq hring =>
    exact .store ⟨⟨_, he⟩, hs, hne, havail, hsyn, hseq, hring (by decide), rfl⟩
  | finRcvd he hfin hs hsyn hroom =>
    obtain ⟨hseq, hone⟩ := hroom (by decide)
    exact .fin ⟨⟨_, he⟩, hfin, hs, hsyn, hseq, hone, rfl⟩
  | finState => exact .same afterFin_sameRx hstate

theorem Move.rx (h : Move recvIrregular e t out t') : RxMove e t t' ∧ ∀ s ∈ out, Offer t' s := by
  have hnone {u : Tcb} : ∀ s ∈ ([] : List Sent), Offer u s := fun _ hs => by cases hs
  cases h with
  | other h => exact ⟨h.rx, hnone⟩
  | bare h => exact ⟨.keep .frame rfl, forall_mem_singleton.mpr h.wnd⟩
  | syn h => exact ⟨.keep .frame rfl, forall_mem_singleton.mpr (offer_output _ _ _ rfl rfl)⟩
  | fin sent hconn hsyn hfin hseq hone =>
    refine ⟨.keep .frame rfl, fun s hs => ?_⟩
    split at hs
    · rw [mem_singleton.mp hs]
      exact offer_output _ _ _ rfl rfl
    · cases hs
  | data => exact ⟨.keep .frame rfl, forall_mem_singleton.mpr (offer_output _ _ _ rfl rfl)⟩
  | connect => exact ⟨.keep .frame rfl, hnone⟩
  | @simultaneous _ _ g o he hL hstate h hout huna hconn hsyn hack =>
    subst h hout
    obtain ⟨hsame, hstate', hoffer⟩ := synInSynSent_rx hack o.first
    exact ⟨.heard ⟨⟨o, he⟩, hstate, hstate', hsyn, hsame⟩, hoffer⟩
  | tooNew he hL hstate =>
    exact ⟨.opened .established .frame hstate rfl (by decide), hnone⟩
  | write he hstate hne havail hfull hfin hring =>
    have hsame := written_sameRx (hfull (by decide)) havail (hring (by decide) (by decide))
    exact ⟨.keep hsame rfl, hnone⟩
  | queueFin he hstate hsyn hwnd =>
    refine ⟨?_, hnone⟩
    rcases hstate with ⟨hstate | hstate, rfl⟩ | ⟨hstate, rfl⟩
    · exact .opened .finWait1 .frame hstate rfl (by decide)
    · exact .opened .finWait1 .frame hstate rfl (by decide)
    · exact .opened .lastAck .frame hstate rfl (by decide)

/-- A micro of an event that does not read: a move of the receiver, and the segments sent. -/
structure RxMicro (e : Event) (c c' : Conn) : Prop where
  move : RxMove e c.tcb c'.tcb
  reader : c'.reader = c.reader
  delivered : c'.delivered = c.delivered
  ended : c'.ended = c.ended
  log : ∃ more, c'.log = c.log ++ more ∧ ∀ p ∈ more, Offer c'.tcb p.2

theorem rxMicro_after (hm : RxMove e c.tcb t') (hout : ∀ s ∈ out, Offer t' s) :
    RxMicro e c (c.after (t', out)) := by
  refine ⟨hm, rfl, rfl, rfl, _, rfl, ?_⟩
  intro p hp
  obtain ⟨s, hs, rfl⟩ := mem_map.mp hp
  exact hout s hs

theorem rxMicro_hear (h : RxMove e c.tcb t') : RxMicro e c ((c.hear g).after (t', [])) :=
  ⟨h, rfl, rfl, rfl, [], rfl, fun _ hp => by cases hp⟩

theorem AckFrame.sameRx (h : AckFrame t t') : SameRx t t' :=
  { h with buffer := fun _ _ => by rw [h.buffer] }

theorem synAcked_rx (t : Tcb) (g : Seg) :
    SameRx { t with rcv := ⟨g.seq + 1, g.seq + 1⟩ } (synAcked t g) := by
  have h := tcpAck_frame { t with rcv := ⟨g.seq + 1, g.seq + 1⟩ } (g.ack - t.snd.una)
  exact { h with buffer := fun _ _ => congrFun h.buffer _ }

theorem establish_rx (t : Tcb) (g : Seg) : SameRx t (establish t g) := by
  have h := tcpAck_frame { t with state := .established } (g.ack - t.snd.una)
  exact { h with buffer := fun _ _ => congrFun h.buffer _ }

theorem establish_state (t : Tcb) (g : Seg) : (establish t g).state = .established :=
  (tcpAck_frame { t with state := .established } _).state

theorem Micro.rx (h : Micro recvIrregular e c c') (he : reads e = false) : RxMicro e c c' := by
  cases h with
  | move hm => exact rxMicro_after hm.rx.1 hm.rx.2
  | hear hin =>
    exact ⟨.keep .frame rfl, rfl, rfl, rfl, [], (append_nil _).symm, fun _ hp => by cases hp⟩
  | app hr => exact absurd (he.symm.trans hr) (by decide)
  | @synAck g _ hin hconn hstate hack hadv h1 h2 =>
    have hsyn : has g.flg flagSyn = true := by
      rw [advertised, if_pos hstate] at hadv
      exact (ite_none_right_eq_some.mp hadv).1.2.1
    exact rxMicro_hear (.heard ⟨⟨_, hin⟩, hstate, (fun hc => by cases hc), hsyn, synAcked_rx _ g⟩)
  | @establish g _ hin hconn hstate hack heq h1 hadv =>
    exact rxMicro_hear
      (.opened .established (establish_rx _ g) hstate (establish_state _ g) (by decide))
  | @acked g _ hin hconn hstate h1 h2 hadv hstale hshort =>
    exact rxMicro_hear (.keep (ackWindow_frame _ g).sameRx (ackWindow_frame _ g).state)

/-! ## The stream of the peer -/

/-- What calls of the application have got, the one that sleeps included. -/
def Conn.taken (c : Conn) : List Byte := c.delivered ++ c.reader.elim [] (·.got)

/-- What was received. -/
def Conn.stored (c : Conn) : List Byte := c.taken ++ rxBytes c.tcb

/-- The segment carries the bytes of the stream `B` from `pos` on, and a FIN only at its end. It is
less than half of the sequence space away from the first byte that is missing. -/
def CarriesAt (B : List Byte) (irs : SeqNo) (next : Nat) (g : Seg) (pos : Nat) : Prop :=
  g.seq = irs + 1 + BitVec.ofNat 32 pos ∧ pos + g.len ≤ B.length ∧
    g.data.flatten = (B.drop pos).take g.len ∧
    (has g.flg flagFin = true → pos + g.len = B.length) ∧
    pos + g.len ≤ next + 2147483648 ∧ next ≤ pos + 2147483648

instance (B : List Byte) (irs : SeqNo) (next : Nat) (g : Seg) (pos : Nat) :
    Decidable (CarriesAt B irs next g pos) := by
  unfold CarriesAt
  infer_instance

def Carries (B : List Byte) (irs : SeqNo) (next : Nat) (g : Seg) : Prop :=
  ∃ pos ∈ List.range (B.length + 1), CarriesAt B irs next g pos

instance (B : List Byte) (irs : SeqNo) (next : Nat) (g : Seg) :
    Decidable (Carries B irs next g) := by
  unfold Carries
  infer_instance

/-- Every segment is one of the peer, whose SYN has the number `irs`. -/
def peerOk (B : List Byte) (irs : SeqNo) (c : Conn) : Event → Bool
  | .input g _ =>
    if has g.flg flagSyn then decide (g.seq = irs)
    else decide (g.len = 0 ∧ has g.flg flagFin = false ∨ Carries B irs c.stored.length g)
  | _ => true

theorem seq_of_peerOk {irs : SeqNo} (h : peerOk B irs c (.input g o) = true)
    (hsyn : has g.flg flagSyn = true) : g.seq = irs := by
  rw [peerOk, if_pos hsyn] at h
  exact of_decide_eq_true h

theorem carries_of_peerOk {irs : SeqNo} (h : peerOk B irs c (.input g o) = true)
    (hsyn : has g.flg flagSyn = false) (hg : g.len ≠ 0 ∨ has g.flg flagFin = true) :
    ∃ pos, CarriesAt B irs c.stored.length g pos := by
  rw [peerOk, if_neg (by rw [hsyn]; decide)] at h
  rcases of_decide_eq_true h with ⟨hlen, hfin⟩ | ⟨pos, -, hpos⟩
  · rcases hg with hg | hg
    · exact absurd hlen hg
    · rw [hfin] at hg
      cases hg
  · exact ⟨pos, hpos⟩

theorem peerOk_congr {irs : SeqNo} (h : peerOk B irs c e = true)
    (hlen : c'.stored.length = c.stored.length) : peerOk B irs c' e = true := by
  cases e with
  | input g o => rwa [peerOk, hlen]
  | _ => rfl

/-- Nothing has been heard of the peer. -/
structure Unheard (c : Conn) : Prop where
  state : c.tcb.state = .synSent ∨ c.tcb.state = .closed
  nxt : c.tcb.rcv.nxt = c.tcb.rcv.rdptr
  finReceived : c.tcb.finReceived = false
  taken : c.taken = []

/-- `rcv.nxt` counts what was received, and the FIN. -/
structure Heard (irs : SeqNo) (c : Conn) : Prop where
  state : c.tcb.state ≠ .synSent
  nxt : c.tcb.rcv.nxt = irs + 1 + BitVec.ofNat 32 (c.stored.length + rxFin c.tcb)

structure Received (B : List Byte) (irs : SeqNo) (c : Conn) : Prop where
  used : (rxfifoUsed c.tcb).toNat ≤ c.tcb.rxfifoSize.val
  stored : c.stored <+: B
  fin : c.tcb.finReceived = true → 1 ≤ (rxfifoUsed c.tcb).toNat ∧ c.stored = B
  nxt : Unheard c ∨ Heard irs c
  ended : c.ended = true → c.tcb.finReceived = true ∧ c.delivered = B
  windows : ∀ p ∈ c.log, p.2.wnd ≤ c.tcb.rxfifoSize.val

variable {irs : SeqNo}

theorem Offer.le_size {s : Sent} (h : Offer t s) (hused : (rxfifoUsed t).toNat ≤ t.rxfifoSize.val) :
    s.wnd ≤ t.rxfifoSize.val := by
  rcases h with h | ⟨-, h⟩
  · omega
  · rw [rxfifoAvail_toNat hused] at h
    omega

theorem RxMicro.taken (h : RxMicro e c c') : c'.taken = c.taken := by
  rw [Conn.taken, Conn.taken, h.delivered, h.reader]

theorem Unheard.stored (h : Unheard c) : c.stored = [] := by
  rw [Conn.stored, h.taken, (rxBytes_of_nxt h.nxt).2]
  rfl

section

variable (h : Received B irs c)
include h

section

variable (hm : RxMicro e c c')
include hm

/-- The end is not reported before the FIN has come. -/
theorem Received.not_ended (hfin : c.tcb.finReceived = false) : c'.ended ≠ true := by
  rw [hm.ended]
  intro hend
  exact absurd ((h.ended hend).1.symm.trans hfin) (by decide)

omit h in
/-- The log after a micro, if the FIFO is not overfull. -/
theorem RxMicro.windows (h : Received B irs c) (hsize : c'.tcb.rxfifoSize = c.tcb.rxfifoSize)
    (hused : (rxfifoUsed c'.tcb).toNat ≤ c'.tcb.rxfifoSize.val) :
    ∀ p ∈ c'.log, p.2.wnd ≤ c'.tcb.rxfifoSize.val := by
  obtain ⟨more, hlog, hoffer⟩ := hm.log
  intro p hp
  rw [hlog] at hp
  rcases mem_append.mp hp with hp | hp
  · rw [hsize]
    exact h.windows p hp
  · exact (hoffer p hp).le_size hused

theorem Received.same (hrx : SameRx c.tcb c'.tcb)
    (hstate : Stays c.tcb.state c'.tcb.state) : Received B irs c' ∧ c'.stored = c.stored := by
  have hstored : c'.stored = c.stored := by
    rw [Conn.stored, Conn.stored, hm.taken, hrx.bytes]
  have hused : (rxfifoUsed c'.tcb).toNat ≤ c'.tcb.rxfifoSize.val := by
    rw [hrx.used, hrx.rxfifoSize]
    exact h.used
  refine ⟨⟨hused, ?_, ?_, ?_, ?_, hm.windows h hrx.rxfifoSize hused⟩, hstored⟩
  · rw [hstored]
    exact h.stored
  · rw [hstored, hrx.used, hrx.finReceived]
    exact h.fin
  · rcases h.nxt with hun | hhe
    · exact .inl ⟨hstate.1 hun.state, by rw [hrx.rcv]; exact hun.nxt,
        hrx.finReceived.trans hun.finReceived, hm.taken.trans hun.taken⟩
    · exact .inr ⟨hstate.2 hhe.state, by rw [hrx.rcv, hrx.fin, hstored]; exact hhe.nxt⟩
  · rw [hm.ended, hm.delivered, hrx.finReceived]
    exact h.ended

theorem Received.heard (hpeer : peerOk B irs c e = true) (hs : HearsSyn e c.tcb c'.tcb g) :
    Received B irs c' ∧ c'.stored = c.stored := by
  obtain ⟨⟨o, rfl⟩, hstate, hstate', hsyn, hsame⟩ := hs
  have hun : Unheard c := h.nxt.resolve_right fun hh => hh.state hstate
  have hseq : g.seq = irs := seq_of_peerOk hpeer hsyn
  have hrcv : c'.tcb.rcv = ⟨irs + 1, irs + 1⟩ := by rw [hsame.rcv, hseq]
  obtain ⟨hzero, hbytes⟩ := rxBytes_of_nxt (t := c'.tcb) (by rw [hrcv])
  have hfin : c'.tcb.finReceived = false := hsame.finReceived.trans hun.finReceived
  have hstored : c'.stored = [] := by
    rw [Conn.stored, hm.taken, hun.taken, hbytes]
    rfl
  have hused : (rxfifoUsed c'.tcb).toNat ≤ c'.tcb.rxfifoSize.val := by
    rw [hzero]
    exact Nat.zero_le _
  refine ⟨⟨hused, ?_, ?_, .inr ⟨hstate', ?_⟩, ?_, hm.windows h hsame.rxfifoSize hused⟩, ?_⟩
  · rw [hstored]
    exact nil_prefix
  · rw [hfin]
    exact fun hc => by cases hc
  · rw [hrcv, hstored, rxFin_of_false hfin]
    exact (BitVec.add_zero _).symm
  · exact fun hend => absurd hend (h.not_ended hm hun.finReceived)
  · rw [hstored, hun.stored]

omit h in
omit hm in
/-- The place in the stream that `rcv.nxt` stands for. -/
theorem pos_eq_of_near (irs : SeqNo) {pos m : Nat} (h : irs + 1 + BitVec.ofNat 32 pos =
    irs + 1 + BitVec.ofNat 32 m) (h1 : pos < m + 4294967296) (h2 : m < pos + 4294967296) :
    pos = m := by
  have hcancel : BitVec.ofNat 32 pos = BitVec.ofNat 32 m := by bv_omega
  have hmod : pos % 4294967296 = m % 4294967296 := by
    have := congrArg BitVec.toNat hcancel
    rwa [BitVec.toNat_ofNat, BitVec.toNat_ofNat] at this
  omega

omit h in
omit hm in
theorem rxFin_le (t : Tcb) : rxFin t ≤ 1 := by
  rw [rxFin]
  split <;> decide

omit hm in
/-- A segment that is stored begins where the stream ends so far. -/
theorem Heard.pos_eq {pos : Nat} (hh : Heard irs c)
    (hat : CarriesAt B irs c.stored.length g pos) (hseq : g.seq = c.tcb.rcv.nxt) :
    pos = c.stored.length ∧ c.tcb.finReceived = false := by
  obtain ⟨hpos, hin, -, -, hnear1, hnear2⟩ := hat
  have hone := rxFin_le c.tcb
  have heq : pos = c.stored.length + rxFin c.tcb := by
    refine pos_eq_of_near irs ?_ (by omega) (by omega)
    rw [← hpos, hseq, hh.nxt]
  cases hfin : c.tcb.finReceived with
  | false =>
    rw [rxFin_of_false hfin] at heq
    exact ⟨heq, rfl⟩
  | true =>
    -- behind the FIN there is nothing
    have hall := congrArg List.length (h.fin hfin).2
    rw [rxFin_of_true hfin] at heq
    omega

theorem Received.store (hpeer : peerOk B irs c e = true) (hs : Stores e c.tcb c'.tcb g) :
    Received B irs c' ∧ peerOk B irs c' e = true := by
  obtain ⟨⟨o, rfl⟩, hstate, hne, havail, hsyn, hseq, hring, ht⟩ := hs
  have hh : Heard irs c := by
    refine h.nxt.resolve_left fun hun => ?_
    rcases hun.state with hs | hs <;> rw [hs] at hstate <;> cases hstate
  obtain ⟨pos, hat⟩ := carries_of_peerOk hpeer hsyn (.inl hne)
  obtain ⟨hpos, hfin⟩ := Heard.pos_eq h hh hat hseq
  have hroom : (rxfifoUsed c.tcb).toNat + g.data.flatten.length ≤ c.tcb.rxfifoSize.val := by
    have hused := h.used
    rw [rxfifoAvail_toNat hused, Seg.len] at havail
    omega
  have hbytes := storeData_bytes hfin hroom hring
  obtain ⟨buffer, n, hframe⟩ := storeData_frame c.tcb g.data
  have hnxt := storeData_nxt c.tcb g.data
  have hfin' : c'.tcb.finReceived = false := by rw [ht, hframe]; exact hfin
  have hsize : c'.tcb.rxfifoSize = c.tcb.rxfifoSize := by rw [ht, hframe]
  have hused' : (rxfifoUsed c'.tcb).toNat = (rxfifoUsed c.tcb).toNat + g.data.flatten.length :=
    used_add (by rw [ht, hframe]) (by rw [ht]; exact hnxt) hroom
  have hused : (rxfifoUsed c'.tcb).toNat ≤ c'.tcb.rxfifoSize.val := by
    rw [hused', hsize]
    exact hroom
  have hstored : c'.stored = c.stored ++ g.data.flatten := by
    rw [Conn.stored, hm.taken, ht, hbytes, ← append_assoc]
    rfl
  have hlen : c'.stored.length = c.stored.length + g.len := by
    rw [hstored, length_append]
    rfl
  have hnofin := rxFin_of_false hfin
  have hnofin' := rxFin_of_false hfin'
  have hnear := hat.2.2.2.2
  refine ⟨⟨hused, ?_, ?_, .inr ⟨?_, ?_⟩, ?_, hm.windows h hsize hused⟩, ?_⟩
  · -- the next bytes of the stream
    obtain ⟨rest, hrest⟩ := h.stored
    have hdrop : B.drop c.stored.length = rest := by rw [← hrest, drop_left]
    rw [hstored, hat.2.2.1, hpos, hdrop, ← hrest]
    exact (prefix_append_right_inj _).mpr ( take_prefix _ _)
  · rw [hfin']
    exact fun hc => by cases hc
  · rw [ht, hframe]
    exact hh.state
  · rw [ht, hnxt, hh.nxt, ← ht, hlen, hnofin, hnofin', Seg.len]
    simp only [Nat.add_zero, BitVec.ofNat_add, BitVec.add_assoc]
  · exact fun hend => absurd hend (h.not_ended hm hfin)
  have hcarries : CarriesAt B irs c'.stored.length g pos := by
    refine ⟨hat.1, hat.2.1, hat.2.2.1, hat.2.2.2.1, ?_, ?_⟩ <;> omega
  have hle : pos ∈ List.range (B.length + 1) := mem_range.mpr (by have := hat.2.1; omega)
  rw [peerOk, if_neg (by rw [hsyn]; decide)]
  exact decide_eq_true (.inr ⟨pos, hle, hcarries⟩)

theorem Received.finRcvd (hpeer : peerOk B irs c e = true) (hs : TakesFin e c.tcb c'.tcb g) :
    Received B irs c' ∧ c'.stored = c.stored := by
  obtain ⟨⟨o, rfl⟩, hfin, hstate, hsyn, hseq, hroom, ht⟩ := hs
  have hh : Heard irs c := by
    refine h.nxt.resolve_left fun hun => ?_
    rcases hun.state with hs | hs
    · exact hstate.2 hs
    · exact hstate.1 hs
  obtain ⟨pos, hpos, hin, -, hend, hnear1, hnear2⟩ :=
    carries_of_peerOk hpeer hsyn (.inr hfin)
  have hone := rxFin_le c.tcb
  have hall : pos + g.len = c.stored.length + rxFin c.tcb := by
    refine pos_eq_of_near irs ?_ (by omega) (by omega)
    rw [← hh.nxt, hseq, hpos, BitVec.ofNat_add, BitVec.add_assoc _ _ (BitVec.ofNat 32 g.len)]
  have hfirst : c.tcb.finReceived = false := by
    cases hf : c.tcb.finReceived with
    | false => rfl
    | true =>
      have hwhole := congrArg List.length (h.fin hf).2
      rw [rxFin_of_true hf] at hall
      have := hend hfin
      omega
  have hnofin := rxFin_of_false hfirst
  have hbehind : rxFin c'.tcb = 1 := by rw [ht]; rfl
  have hB : c.stored = B := h.stored.eq_of_length (by have := hend hfin; omega)
  have hsize : c'.tcb.rxfifoSize = c.tcb.rxfifoSize := by rw [ht]
  have hspace : (rxfifoUsed c.tcb).toNat + 1 ≤ c.tcb.rxfifoSize.val := by
    rw [rxfifoAvail_toNat h.used] at hroom
    omega
  have hused' : (rxfifoUsed c'.tcb).toNat = (rxfifoUsed c.tcb).toNat + 1 :=
    used_add (by rw [ht]) (by rw [ht]; rfl) hspace
  have hused : (rxfifoUsed c'.tcb).toNat ≤ c'.tcb.rxfifoSize.val := by
    rw [hused', hsize]
    exact hspace
  have hstored : c'.stored = c.stored := by
    have hbytes : rxBytes c'.tcb = rxBytes c.tcb := by
      rw [rxBytes, rxBytes, hused', hbehind, hnofin, Nat.add_sub_cancel, Nat.sub_zero, ht]
    rw [Conn.stored, hm.taken, hbytes, Conn.stored]
  refine ⟨⟨hused, ?_, ?_, .inr ⟨?_, ?_⟩, ?_, hm.windows h hsize hused⟩, hstored⟩
  · rw [hstored]
    exact h.stored
  · exact fun _ => ⟨by omega, hstored.trans hB⟩
  · rw [ht]
    exact hstate.2
  · rw [hstored, hbehind, BitVec.ofNat_add, ← BitVec.add_assoc, ht]
    rw [hh.nxt, hnofin]
    rfl
  · exact fun hend => absurd hend (h.not_ended hm hfirst)

end

/-- Events that do not read keep the invariant, and their segment stays one of the peer. -/
theorem Received.micro (hpeer : peerOk B irs c e = true)
    (hs : Micro recvIrregular e c c') (he : reads e = false) :
    Received B irs c' ∧ peerOk B irs c' e = true := by
  have hm := hs.rx he
  have hkeep : Received B irs c' ∧ c'.stored = c.stored →
      Received B irs c' ∧ peerOk B irs c' e = true :=
    fun hr => ⟨hr.1, peerOk_congr hpeer (congrArg List.length hr.2)⟩
  cases hm.move with
  | same hrx hstate => exact hkeep (h.same hm hrx hstate)
  | heard hs => exact hkeep (h.heard hm hpeer hs)
  | store hs => exact h.store hm hpeer hs
  | fin hs => exact hkeep (h.finRcvd hm hpeer hs)

end

/-! ## Reading -/

/-- `k` bytes leave the RX FIFO. -/
structure Consumed (k : Nat) (t t' : Tcb) : Prop where
  state : t'.state = t.state
  finReceived : t'.finReceived = t.finReceived
  txfifoSize : t'.txfifoSize = t.txfifoSize
  rxfifoSize : t'.rxfifoSize = t.rxfifoSize
  buffer : t'.buffer = t.buffer
  nxt : t'.rcv.nxt = t.rcv.nxt
  rdptr : t'.rcv.rdptr = t.rcv.rdptr + BitVec.ofNat 32 k

theorem Consumed.zero (t : Tcb) : Consumed 0 t t :=
  ⟨rfl, rfl, rfl, rfl, rfl, rfl, (BitVec.add_zero _).symm⟩

theorem consumed_consume (t : Tcb) (k : Nat) : Consumed k t (tcpRxfifoConsume t k) := by
  simp only [tcpRxfifoConsume]
  split <;> exact ⟨rfl, rfl, rfl, rfl, rfl, rfl, rfl⟩

theorem Consumed.fin (h : Consumed k t t') : rxFin t' = rxFin t := by
  rw [rxFin, rxFin, h.finReceived]

theorem Consumed.used (h : Consumed k t t') (hk : k ≤ (rxBytes t).length) :
    (rxfifoUsed t').toNat = (rxfifoUsed t).toNat - k := by
  rw [length_rxBytes] at hk
  rw [rxfifoUsed, h.nxt, h.rdptr]
  rw [rxfifoUsed] at hk ⊢
  have hback : t.rcv.rdptr + BitVec.ofNat 32 k - t.rcv.rdptr = BitVec.ofNat 32 k := by bv_omega
  have hto : (t.rcv.rdptr + BitVec.ofNat 32 k - t.rcv.rdptr).toNat = k := by
    rw [hback, BitVec.toNat_ofNat]
    exact Nat.mod_eq_of_lt (by omega)
  rw [Seq.dist_split (by rw [hto]; omega), hto]

theorem Consumed.bytes (h : Consumed k t t') (hk : k ≤ (rxBytes t).length) :
    rxBytes t' = (rxBytes t).drop k := by
  have hpos : t'.rcv.rdptr.toNat % t.rxfifoSize.val =
      (t.rcv.rdptr.toNat + k) % t.rxfifoSize.val := by
    rw [h.rdptr, FifoSize.add_mod]
  have hlen := length_rxBytes t
  rw [rxBytes, h.used hk, h.fin, h.buffer, h.txfifoSize, h.rxfifoSize, Ring.read_congr_mod hpos,
    rxBytes, Ring.drop_read (by omega)]
  congr 1
  omega

theorem userBytes_eq (h : rxfifoUserBytes t = some k) : k = (rxBytes t).length := by
  rw [length_rxBytes, rxFin]
  rw [rxfifoUserBytes] at h
  split at h
  · cases h
  split at h
  · rename_i hfin
    rw [if_pos hfin]
    split at h
    · cases h
    · exact (Option.some.inj h).symm
  · rename_i hfin
    rw [if_neg hfin]
    exact (Option.some.inj h).symm

/-- The call neither reads over the end of the ring at once nor comes upon the end of the stream
with bytes in its hands. -/
def readerOk (t : Tcb) (r : Reader) : Bool :=
  r.size == 0 ||
    match rxfifoUserBytes t with
    | none => t.finReceived && decide ((rxfifoUsed t).toNat ≤ 1) && r.got.isEmpty
    | some used =>
      (decide (min r.size used < t.rxfifoSize.val) ||
        decide (t.rcv.rdptr.toNat % t.rxfifoSize.val = 0)) &&
      (!t.finReceived || decide (r.size ≤ used))

def readOk (c : Conn) : Event → Bool
  | .read size require => readerOk c.tcb ⟨[], size, require⟩
  | .wake => c.reader.all (readerOk c.tcb)
  | .peek => c.reader.isNone &&
    ((rxfifoUserBytes c.tcb).isSome ||
      c.tcb.finReceived && decide ((rxfifoUsed c.tcb).toNat ≤ 1))
  | _ => true

/-- The call does not read over the end of the ring, and finds the stream closed or at its end only
with nothing in its hands. -/
def readerFine (t : Tcb) (r : Reader) : Bool :=
  r.size == 0 ||
    match rxfifoUserBytes t with
    | none => r.got.isEmpty
    | some used =>
      (decide (min r.size used < t.rxfifoSize.val) ||
        decide (t.rcv.rdptr.toNat % t.rxfifoSize.val = 0) &&
          decide (min r.size used ≤ t.rxfifoSize.val)) &&
      (!t.finReceived || decide (r.size ≤ used))

/-- What a call of `tcp_stream_read` did: `k` bytes were taken. -/
structure Copied (k : Nat) (t : Tcb) (r : Reader) (x : Tcb × Reader × ReadEnd) : Prop where
  le : k ≤ (rxBytes t).length
  tcb : Consumed k t x.1
  got : x.2.1.got = r.got ++ (rxBytes t).take k
  failed : x.2.2 = .failed → k = 0 ∧ r.got = [] ∧ r.size ≠ 0 ∧ rxfifoUserBytes t = none

/-- A call that takes nothing. -/
theorem Copied.none {x : ReadEnd} (hx : x ≠ .failed) : Copied 0 t r (t, r, x) :=
  ⟨Nat.zero_le _, .zero t, by rw [take_zero, append_nil], fun h => absurd h hx⟩

/-- The loop ends when nothing is wanted, or nothing is there. -/
theorem readLoop_idle {rounds : Nat} (hrounds : rounds ≠ 0)
    (h : r.size = 0 ∨ rxfifoUserBytes t = some 0) :
    ∃ x, x ≠ ReadEnd.failed ∧ readLoop rounds t r = (t, r, x) := by
  obtain ⟨n, rfl⟩ := Nat.exists_eq_succ_of_ne_zero hrounds
  rw [readLoop]
  split
  · exact ⟨.returned, by decide, rfl⟩
  · rename_i hsize
    rw [h.resolve_left hsize]
    refine ⟨_, ?_, rfl⟩
    split <;> decide

/-- The call after a round that finds `used` bytes. -/
def Reader.more (r : Reader) (t : Tcb) (used : Nat) : Reader :=
  ⟨r.got ++ wtolMemcpy t.buffer t.txfifoSize.val (min r.size used) t.rcv.rdptr t.rxfifoSize.val,
    r.size - min r.size used, r.require⟩

theorem readLoop_round {used : Nat} (rounds : Nat) (hsize : r.size ≠ 0)
    (hu : rxfifoUserBytes t = some used) (hused : used ≠ 0) : readLoop (rounds + 1) t r =
      readLoop rounds (tcpRxfifoConsume t (min r.size used)) (r.more t used) := by
  rw [readLoop, if_neg hsize, hu]
  cases used with
  | zero => exact absurd rfl hused
  | succ n => rfl

/-- After a round all was read, or nothing is left. -/
theorem idle_after_round {used : Nat} (hu : rxfifoUserBytes t = some used)
    (hend : t.finReceived = false ∨ r.size ≤ used) : (r.more t used).size = 0 ∨
      rxfifoUserBytes (tcpRxfifoConsume t (min r.size used)) = some 0 := by
  by_cases hle : r.size ≤ used
  · left
    show r.size - min r.size used = 0
    omega
  · right
    have hcons := consumed_consume t (min r.size used)
    have hlen := userBytes_eq hu
    have hfin : t.finReceived = false := hend.resolve_right hle
    have hopen : t.state ≠ .closed := by
      intro hc
      rw [rxfifoUserBytes, if_pos hc] at hu
      cases hu
    have hall : (rxfifoUsed t).toNat = used := by
      rw [hlen, length_rxBytes, rxFin_of_false hfin, Nat.sub_zero]
    rw [rxfifoUserBytes, hcons.state, if_neg hopen, hcons.finReceived, hfin, if_neg (by decide),
      hcons.used (by omega)]
    congr 1
    omega

theorem more_got {used : Nat} (hu : rxfifoUserBytes t = some used)
    (hring : min r.size used < t.rxfifoSize.val ∨ t.rcv.rdptr.toNat % t.rxfifoSize.val = 0 ∧
      min r.size used ≤ t.rxfifoSize.val) :
    (r.more t used).got = r.got ++ (rxBytes t).take (min r.size used) := by
  have hlen := userBytes_eq hu
  show r.got ++ wtolMemcpy _ _ _ _ _ = _
  rw [wtolMemcpy_eq _ _ hring t.rxfifoSize.pos, rxBytes,
    Ring.take_read (by rw [← length_rxBytes]; omega)]

theorem readerFine_of_ok (hused : (rxfifoUsed t).toNat ≤ t.rxfifoSize.val)
    (hok : readerOk t r = true) : readerFine t r = true := by
  unfold readerOk at hok
  unfold readerFine
  cases hu : rxfifoUserBytes t with
  | none =>
    rw [hu] at hok
    simp only [Bool.or_eq_true, Bool.and_eq_true] at hok ⊢
    exact hok.imp_right And.right
  | some used =>
    have hle : used ≤ t.rxfifoSize.val := by
      rw [userBytes_eq hu, length_rxBytes]
      omega
    rw [hu] at hok
    simp only [Bool.or_eq_true, Bool.and_eq_true, decide_eq_true_eq] at hok ⊢
    refine hok.imp_right fun h => ⟨h.1.imp_right fun hzero => ⟨hzero, ?_⟩, h.2⟩
    omega

theorem readLoop_copied (hok : readerFine t r = true) :
    ∃ k, Copied k t r (readLoop (r.size + 1) t r) := by
  by_cases hsize : r.size = 0
  · obtain ⟨x, hx, heq⟩ := readLoop_idle (Nat.succ_ne_zero r.size) (.inl hsize)
    rw [heq]
    exact ⟨0, .none hx⟩
  rw [readerFine, beq_eq_false_iff_ne.mpr hsize, Bool.false_or] at hok
  cases hu : rxfifoUserBytes t with
  | none =>
    rw [hu, List.isEmpty_iff] at hok
    rw [readLoop, if_neg hsize, hu]
    exact ⟨0, Nat.zero_le _, .zero t, by rw [List.take_zero, List.append_nil],
      fun _ => ⟨rfl, hok, hsize, hu⟩⟩
  | some used =>
    rw [hu] at hok
    simp only [Bool.and_eq_true, Bool.or_eq_true, decide_eq_true_eq, Bool.not_eq_true'] at hok
    by_cases hzero : used = 0
    · obtain ⟨x, hx, heq⟩ := readLoop_idle (Nat.succ_ne_zero r.size) (.inr (hzero ▸ hu))
      rw [heq]
      exact ⟨0, .none hx⟩
    · obtain ⟨x, hx, heq⟩ := readLoop_idle hsize (idle_after_round hu hok.2)
      have hlen := userBytes_eq hu
      rw [readLoop_round r.size hsize hu hzero, heq]
      exact ⟨min r.size used, by omega, consumed_consume _ _, more_got hu hok.1,
        fun h => absurd h hx⟩

/-- What a call of the application does to the receiver: bytes move from the FIFO to the
application. -/
structure Took (c c' : Conn) : Prop where
  tcb : ∃ k ≤ (rxBytes c.tcb).length, Consumed k c.tcb c'.tcb
  stored : c'.stored = c.stored
  delivered : c.delivered <+: c'.delivered
  log : c'.log = c.log
  ended : c'.ended = true → c.ended = true ∨ c.tcb.finReceived = true ∧ c'.delivered = c.stored

theorem rxBytes_eq_nil (hfin : t.finReceived = true) (hused : (rxfifoUsed t).toNat ≤ 1) :
    rxBytes t = [] := by
  have hnone : (rxfifoUsed t).toNat - rxFin t = 0 := by
    rw [rxFin_of_true hfin]
    omega
  rw [rxBytes, hnone, Ring.read_zero]

theorem runReader_took (hused : (rxfifoUsed c.tcb).toNat ≤ c.tcb.rxfifoSize.val)
    (hok : readerOk c.tcb r = true) (htaken : c.taken = c.delivered ++ r.got) :
    Took c (c.runReader r) := by
  obtain ⟨k, hk⟩ := readLoop_copied (readerFine_of_ok hused hok)
  have hsplit : c.delivered ++ (r.got ++ (rxBytes c.tcb).take k) ++ (rxBytes c.tcb).drop k =
      c.stored := by
    rw [stored, htaken]
    simp only [append_assoc, take_append_drop]
  generalize hx : readLoop (r.size + 1) c.tcb r = x at hk
  obtain ⟨t', r', e⟩ := x
  have hbytes : rxBytes t' = (rxBytes c.tcb).drop k := hk.tcb.bytes hk.le
  cases e with
  | returned =>
    have heq : c.runReader r =
        { c with tcb := t', reader := none, delivered := c.delivered ++ r'.got } := by
      rw [runReader, hx]
    rw [heq]
    refine ⟨⟨k, hk.le, hk.tcb⟩, ?_, prefix_append _ _, rfl, .inl⟩
    show c.delivered ++ r'.got ++ [] ++ rxBytes t' = _
    rw [append_nil, hbytes, hk.got]
    exact hsplit
  | failed =>
    obtain ⟨-, hgot, hsize, hnone⟩ := hk.failed rfl
    obtain ⟨hfin, hone⟩ : c.tcb.finReceived = true ∧ (rxfifoUsed c.tcb).toNat ≤ 1 := by
      rw [readerOk, beq_eq_false_iff_ne.mpr hsize, Bool.false_or, hnone] at hok
      simp only [Bool.and_eq_true, decide_eq_true_eq] at hok
      exact hok.1
    have heq : c.runReader r = { c with tcb := t', reader := none, ended := true } := by
      rw [runReader, hx]
    have hnil := rxBytes_eq_nil hfin hone
    have hdel : c.delivered = c.stored := by
      rw [stored, htaken, hgot, hnil, append_nil, append_nil]
    rw [heq]
    refine ⟨⟨k, hk.le, hk.tcb⟩, ?_, prefix_rfl, rfl, fun _ => .inr ⟨hfin, hdel⟩⟩
    show c.delivered ++ [] ++ rxBytes t' = _
    rw [hbytes, hnil, drop_nil, append_nil, append_nil]
    exact hdel
  | asleep =>
    have heq : c.runReader r = { c with tcb := t', reader := some r' } := by
      rw [runReader, hx]
    rw [heq]
    refine ⟨⟨k, hk.le, hk.tcb⟩, ?_, prefix_rfl, rfl, .inl⟩
    show c.delivered ++ r'.got ++ rxBytes t' = _
    rw [hbytes, hk.got]
    exact hsplit

theorem taken_of_none (h : c.reader = none) : c.taken = c.delivered := by
  rw [taken, h]
  exact append_nil _

theorem peek_took (hok : readOk c .peek = true) :
    Took c { c with ended := c.ended || (rxfifoUserBytes c.tcb).isNone } := by
  rw [readOk, Bool.and_eq_true, isNone_iff_eq_none] at hok
  obtain ⟨hreader, hok⟩ := hok
  refine ⟨⟨0, Nat.zero_le _, .zero _⟩, rfl, prefix_rfl, rfl, fun hend => ?_⟩
  rcases Bool.or_eq_true_iff.mp hend with hend | hnone
  · exact .inl hend
  right
  rw [isNone_iff_eq_none] at hnone
  rw [hnone, isSome_none, Bool.false_or, Bool.and_eq_true, decide_eq_true_eq] at hok
  refine ⟨hok.1, ?_⟩
  rw [stored, taken_of_none hreader, rxBytes_eq_nil hok.1 hok.2, append_nil]

theorem drop_took {bytes : Nat} (hreader : c.reader = none)
    (hlen : (peekLen c.tcb).any (bytes ≤ ·) = true) : Took c { c with
      tcb := tcpRxfifoConsume c.tcb bytes
      delivered := c.delivered ++ peekBytes c.tcb bytes } := by
  obtain ⟨n, hn, hle⟩ := (any_eq_true _ _).mp hlen
  obtain ⟨used, hu, rfl⟩ := map_eq_some_iff.mp hn
  have hbytes := of_decide_eq_true hle
  have hall := userBytes_eq hu
  have hcons := consumed_consume c.tcb bytes
  have hpeek : peekBytes c.tcb bytes = (rxBytes c.tcb).take bytes := by
    have hlt := Nat.mod_lt c.tcb.rcv.rdptr.toNat c.tcb.rxfifoSize.pos
    rw [rxBytes, Ring.take_read (by rw [← length_rxBytes]; omega), Ring.read_eq_of_le (by omega)]
    rfl
  refine ⟨⟨bytes, by omega, hcons⟩, ?_, prefix_append _ _, rfl, .inl⟩
  show c.delivered ++ peekBytes c.tcb bytes ++ c.reader.elim [] (·.got) ++
    rxBytes (tcpRxfifoConsume c.tcb bytes) = _
  rw [hcons.bytes (by omega), hpeek, stored, taken_of_none hreader, hreader]
  simp only [elim_none, append_nil, append_assoc, take_append_drop]

theorem Took.received (h : Took c c') (hr : Received B irs c) : Received B irs c' := by
  obtain ⟨k, hk, hcons⟩ := h.tcb
  have hused := hcons.used hk
  have hlen := length_rxBytes c.tcb
  have hended : c'.ended = true → c.tcb.finReceived = true ∧ c'.delivered = B := by
    intro hend
    rcases h.ended hend with hend | ⟨hfin, hdel⟩
    · -- all was delivered before
      obtain ⟨hfin, hall⟩ := hr.ended hend
      have hmore := h.delivered.length_le
      have hmost : c'.delivered.length ≤ c'.stored.length := by
        rw [Conn.stored, Conn.taken, length_append, length_append]
        omega
      rw [h.stored, (hr.fin hfin).2] at hmost
      refine ⟨hfin, ?_⟩
      rw [← hall]
      exact (h.delivered.eq_of_length (by rw [hall] at hmore ⊢; omega)).symm
    · exact ⟨hfin, hdel.trans (hr.fin hfin).2⟩
  refine ⟨?_, ?_, ?_, ?_, ?_, ?_⟩
  · rw [hused, hcons.rxfifoSize]
    exact Nat.le_trans (Nat.sub_le _ _) hr.used
  · rw [h.stored]
    exact hr.stored
  · rw [hcons.finReceived, h.stored]
    intro hfin
    refine ⟨?_, (hr.fin hfin).2⟩
    have hone := (hr.fin hfin).1
    rw [rxFin_of_true hfin] at hlen
    omega
  · rcases hr.nxt with hun | hh
    · left
      have hnone : (rxBytes c.tcb).length = 0 := by
        have := congrArg List.length hun.stored
        rw [Conn.stored, length_append] at this
        simp only [length_nil] at this
        omega
      have hk0 : k = 0 := by omega
      refine ⟨by rw [hcons.state]; exact hun.state, ?_, hcons.finReceived.trans hun.finReceived, ?_⟩
      · rw [hcons.nxt, hcons.rdptr, hk0, hun.nxt]
        exact (BitVec.add_zero _).symm
      · have := h.stored.trans hun.stored
        rw [Conn.stored] at this
        exact (append_eq_nil_iff.mp this).1
    · right
      refine ⟨by rw [hcons.state]; exact hh.state, ?_⟩
      rw [hcons.nxt, hcons.fin, h.stored]
      exact hh.nxt
  · rw [hcons.finReceived]
    exact hended
  · rw [h.log, hcons.rxfifoSize]
    exact hr.windows

/-- A call of the application keeps the invariant. -/
theorem Received.read (h : Received B irs c) (he : reads e = true) (hok : readOk c e = true)
    (hstep : c.step e = some c') : Took c c' := by
  cases step_does hstep with
  | read size require hnone =>
    refine runReader_took h.used hok ?_
    rw [taken_of_none hnone, append_nil]
  | wake r hr =>
    rw [readOk, hr] at hok
    refine runReader_took h.used hok ?_
    rw [taken, hr]
    rfl
  | peek => exact peek_took hok
  | drop bytes hnone hlen => exact drop_took hnone hlen
  | input => cases he
  | other e r _ hr => cases e <;> cases he <;> cases hr

/-! ## Runs -/

/-- The condition on an event: the segments are those of the peer, no call reads or writes a whole
ring from its middle, and no end comes while bytes are refused or in the hands of a call. -/
def RecvOk (B : List Byte) (irs : SeqNo) (c : Conn) (e : Event) : Prop :=
  Regular recvIrregular c.tcb e ∧ peerOk B irs c e = true ∧ readOk c e = true

instance (B : List Byte) (irs : SeqNo) (c : Conn) (e : Event) : Decidable (RecvOk B irs c e) := by
  unfold RecvOk
  infer_instance

theorem received_start (hused : t.rcv.nxt = t.rcv.rdptr) (hfin : t.finReceived = false)
    (hnxt : t.state = .synSent ∨ t.state ≠ .synSent ∧ t.rcv.nxt = irs + 1)
    (hout : ∀ s ∈ out, s.wnd ≤ t.rxfifoSize.val) (mss : Option Nat) :
    Received B irs (start t out mss) := by
  obtain ⟨hzero, hbytes⟩ := rxBytes_of_nxt hused
  have hstored : (start t out mss).stored = [] := by
    show [] ++ [] ++ rxBytes t = []
    rw [hbytes]
    rfl
  refine ⟨?_, ?_, ?_, ?_, (fun hend => by cases hend), ?_⟩
  · show (rxfifoUsed t).toNat ≤ _
    omega
  · rw [hstored]
    exact nil_prefix
  · exact fun h => absurd (hfin.symm.trans h) (by decide)
  · rcases hnxt with hs | ⟨hs, hnxt⟩
    · exact .inl ⟨.inl hs, hused, hfin, rfl⟩
    refine .inr ⟨hs, ?_⟩
    have hzero := rxFin_of_false hfin
    show t.rcv.nxt = irs + 1 + BitVec.ofNat 32 (_ + rxFin t)
    rw [hstored, hzero, hnxt]
    exact (BitVec.add_zero _).symm
  · intro p hp
    obtain ⟨s, hs, rfl⟩ := mem_map.mp hp
    exact hout s hs

theorem received_init {c0 : Conn} (hinit : Conn.Init c0)
    (hirs : c0.tcb.state = .synReceived → c0.tcb.rcv.nxt = irs + 1) : Received B irs c0 := by
  cases hinit with
  | passive iss tx rx buffer g pulled b t out hflg h =>
    have ho := passiveOpen_opened h
    have hempty : t.rcv.nxt = t.rcv.rdptr := by rw [ho.rcv]
    have hzero := (rxBytes_of_nxt hempty).1
    refine received_start hempty ho.finReceived
      (.inr ⟨by rw [ho.state]; decide, hirs ho.state⟩) (fun s hs => ?_) _
    have hle := (ho.out s hs).2.2.2
    rw [rxfifoAvail_toNat (by omega)] at hle
    omega
  | active iss tx rx buffer =>
    exact received_start rfl rfl (.inl rfl) (fun _ hs => by cases hs) none

/-- What was sent since `c`: every window ends in the free part of the FIFO. -/
structure Offered (c d : Conn) : Prop where
  state : d.tcb.state ≠ .synSent
  rdptr : d.tcb.rcv.rdptr = c.tcb.rcv.rdptr
  rxfifoSize : d.tcb.rxfifoSize = c.tcb.rxfifoSize
  log : ∃ more, d.log = c.log ++ more ∧ ∀ p ∈ more, p.2.wnd = 0 ∨
    (p.2.ack - c.tcb.rcv.rdptr).toNat + p.2.wnd ≤ c.tcb.rxfifoSize.val

theorem RxMove.rdptr_eq (h : RxMove e t t') (hstate : t.state ≠ .synSent) :
    t'.rcv.rdptr = t.rcv.rdptr ∧ t'.rxfifoSize = t.rxfifoSize ∧ t'.state ≠ .synSent := by
  rcases h with ⟨hrx, hs⟩ | hs | hs | hs
  · exact ⟨by rw [hrx.rcv], hrx.rxfifoSize, hs.2 hstate⟩
  · exact absurd hs.state hstate
  · obtain ⟨buffer, n, hframe⟩ := storeData_frame t _
    rw [hs.tcb, hframe]
    exact ⟨rfl, rfl, hstate⟩
  · rw [hs.tcb]
    exact ⟨rfl, rfl, hstate⟩

theorem Offered.micro {d : Conn} (h : Offered c d) (hm : RxMicro e d c')
    (hr : Received B irs c') : Offered c c' := by
  obtain ⟨hrd, hsize, hstate⟩ := hm.move.rdptr_eq h.state
  obtain ⟨more, hlog, hmore⟩ := h.log
  obtain ⟨new, hnew, hoffer⟩ := hm.log
  refine ⟨hstate, hrd.trans h.rdptr, hsize.trans h.rxfifoSize, more ++ new, ?_, ?_⟩
  · rw [hnew, hlog, append_assoc]
  intro p hp
  rcases mem_append.mp hp with hp | hp
  · exact hmore p hp
  rcases hoffer p hp with hzero | ⟨hack, hwnd⟩
  · exact .inl hzero
  right
  have hused := hr.used
  rw [rxfifoAvail_toNat hused, hsize, h.rxfifoSize] at hwnd
  rw [hsize, h.rxfifoSize, rxfifoUsed, hrd, h.rdptr] at hused
  rw [rxfifoUsed, hrd, h.rdptr] at hwnd
  rw [hack]
  omega

/-- An event that does not read, by induction over its micros. -/
theorem Received.micros (h : Received B irs c) (hd : Dormant c.tcb) (hok : RecvOk B irs c e)
    (he : reads e = false) (hstep : c.step e = some c') :
    Received B irs c' ∧ (c.tcb.state ≠ .synSent → Offered c c') := by
  have hmicros := step_micros hok.1 hd (fun hL => absurd hL (by decide)) hstep
  have hall : (Received B irs c' ∧ peerOk B irs c' e = true) ∧
      (c.tcb.state ≠ .synSent → Offered c c') := by
    clear hstep
    induction hmicros with
    | refl =>
      exact ⟨⟨h, hok.2.1⟩, fun hstate => ⟨hstate, rfl, rfl, [], (append_nil _).symm,
        fun _ hp => by cases hp⟩⟩
    | tail _ hs ih =>
      have hnext := ih.1.1.micro ih.1.2 hs he
      exact ⟨hnext, fun hstate => (ih.2 hstate).micro (hs.rx he) hnext.1⟩
  exact ⟨hall.1.1, hall.2⟩

/-- One event. -/
theorem Received.step (h : Received B irs c) (hd : Dormant c.tcb) (hok : RecvOk B irs c e)
    (hstep : c.step e = some c') : Received B irs c' := by
  cases he : reads e with
  | true => exact (h.read he hok.2.2 hstep).received h
  | false => exact (h.micros hd hok he hstep).1

/-- The windows of the segments that one event sends. -/
theorem step_offered (h : Received B irs c) (hd : Dormant c.tcb) (hstate : c.tcb.state ≠ .synSent)
    (hok : RecvOk B irs c e) (hstep : c.step e = some c') :
    ∃ more, c'.log = c.log ++ more ∧ ∀ p ∈ more, p.2.wnd = 0 ∨
      (p.2.ack - c.tcb.rcv.rdptr).toNat + p.2.wnd ≤ c.tcb.rxfifoSize.val := by
  cases he : reads e with
  | true =>
    have htook := h.read he hok.2.2 hstep
    exact ⟨[], by rw [htook.log, append_nil], fun _ hp => by cases hp⟩
  | false => exact ((h.micros hd hok he hstep).2 hstate).log

/-- In every run on segments of one peer that meets the condition: the FIFO is never overfull, no
window is larger than its free part, the application gets the stream in order, `rcv.nxt` counts the
bytes that were stored and the FIN behind the last of them, and the end is reported when all was
delivered. -/
theorem receive_sound (B : List Byte) (irs : SeqNo) {c0 c : Conn} {es : List Event}
    (hinit : Conn.Init c0) (hirs : c0.tcb.state = .synReceived → c0.tcb.rcv.nxt = irs + 1)
    (hrun : Run (Guarded (RecvOk B irs) Conn.Step) c0 es c) :
    (rxfifoUsed c.tcb).toNat ≤ c.tcb.rxfifoSize.val ∧
      (∀ p ∈ c.log, p.2.wnd ≤ c.tcb.rxfifoSize.val) ∧
      c.delivered <+: c.stored ∧ c.stored <+: B ∧
      (Unheard c ∨
        c.tcb.rcv.nxt = irs + 1 + BitVec.ofNat 32 (c.stored.length + rxFin c.tcb)) ∧
      (c.tcb.finReceived = true → c.stored = B) ∧
      (c.ended = true → c.delivered = B) ∧
      ∀ e c', RecvOk B irs c e → Conn.Step c e c' → c.tcb.state ≠ .synSent →
        ∃ more, c'.log = c.log ++ more ∧ ∀ p ∈ more, p.2.wnd = 0 ∨
          (p.2.ack - c.tcb.rcv.rdptr).toNat + p.2.wnd ≤ c.tcb.rxfifoSize.val := by
  have hboth : Received B irs c ∧ Dormant c.tcb := by
    refine hrun.invariant (I := fun c => Received B irs c ∧ Dormant c.tcb)
      ⟨received_init hinit hirs, hinit.dormant⟩ ?_
    rintro u e v ⟨hu, hd⟩ ⟨hok, hstep⟩
    exact ⟨hu.step hd hok hstep, step_dormant hd hstep⟩
  obtain ⟨h, hd⟩ := hboth
  refine ⟨h.used, h.windows, ?_, h.stored, h.nxt.imp_right Heard.nxt, fun hfin => (h.fin hfin).2,
    fun hend => (h.ended hend).2, fun e c' hok hstep hstate => step_offered h hd hstate hok hstep⟩
  rw [stored, taken, append_assoc]
  exact prefix_append _ _

/-- A segment of the peer whose SYN had the number 999. -/
def peerSeg (pos : Nat) (flg : BitVec 8) (data : List (List Byte)) : Event :=
  .input ⟨1000 + BitVec.ofNat 32 pos, 101, flg ||| flagAck, 1000, [], data⟩ plenty

/-- Without the condition: five bytes and a FIN for a FIFO of four, and the end is reported though
nothing was delivered. Four bytes and a FIN, and the FIFO is overfull and its window the largest
there is. A full FIFO read from its middle gives a byte from behind it. A call that wants more than
is there at the end loses what it has read. -/
theorem receive_unsound : (∃ c0 c, Conn.Init c0 ∧
      Run (Guarded (fun c e => peerOk [1, 2, 3, 4, 5] 999 c e = true) Conn.Step) c0
        [peerSeg 0 0 [], peerSeg 0 flagFin [[1, 2, 3, 4, 5]], .read 1 1] c ∧
      c.tcb.rcv.nxt = 1001 ∧ c.ended = true ∧ c.delivered = [] ∧ rxBytes c.tcb = []) ∧
    (∃ c0 c, Conn.Init c0 ∧
      Run (Guarded (fun c e => peerOk [1, 2, 3, 4] 999 c e = true) Conn.Step) c0
        [peerSeg 0 0 [], peerSeg 0 flagFin [[1, 2, 3, 4]]] c ∧
      c.tcb.rxfifoSize.val < (rxfifoUsed c.tcb).toNat ∧
      ∃ p ∈ c.log, p.2.wnd = 65535) ∧ (∃ c0 c, Conn.Init c0 ∧
      Run (Guarded (fun c e => peerOk [1, 2, 3, 4, 5] 999 c e = true) Conn.Step) c0
        [peerSeg 0 0 [], peerSeg 0 0 [[1]], .read 1 1, peerSeg 1 0 [[2, 3], [4, 5]], .read 4 4] c ∧
      c.delivered = [1, 2, 3, 4, 0]) ∧ ∃ c0 c, Conn.Init c0 ∧
      Run (Guarded (fun c e => peerOk [1, 2] 999 c e = true) Conn.Step) c0
        [peerSeg 0 0 [], peerSeg 0 flagFin [[1, 2]], .read 3 1] c ∧
      c.ended = true ∧ c.delivered = [] ∧ rxBytes c.tcb = [] := by
  refine ⟨?_, ?_, ?_, ?_⟩
  all_goals
    refine guarded_run_of_opened size4 size4 100 999 _ _ ?_
    decide +kernel

/-- The bytes come in two segments, one of them twice, the reads go around the end of the ring, and
the end is reported after the last byte. -/
def streamed : List Event :=
  [peerSeg 0 0 [], peerSeg 0 0 [[1, 2, 3]], peerSeg 0 0 [[1, 2, 3]], .read 2 1,
    peerSeg 3 flagFin [[4, 5]], .read 3 1, .read 1 1]

theorem streamed_received : ∃ c0 c, Conn.Init c0 ∧
    Run (Guarded (RecvOk [1, 2, 3, 4, 5] 999) Conn.Step) c0 streamed c ∧
    c.ended = true ∧ c.delivered = [1, 2, 3, 4, 5] := by
  have h : ∃ r ∈ opened size4 size4 100 999, r.1.rcv.nxt = 999 + 1 ∧
      ∃ c ∈ exec (guardStep (RecvOk [1, 2, 3, 4, 5] 999) Conn.step) (Conn.start r.1 r.2 none)
        streamed, c.ended = true := by
    decide +kernel
  obtain ⟨r, hr, hirs, hex⟩ := h
  obtain ⟨c, hrun, hend⟩ := exists_guarded_run hex
  have hinit := init_of_opened hr
  obtain ⟨-, -, -, -, -, -, hall, -⟩ := receive_sound _ 999 hinit (fun _ => hirs) hrun
  exact ⟨_, c, hinit, hrun, hend, hall hend⟩

end Mios.Tcp
