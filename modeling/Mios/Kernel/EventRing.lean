import Mios.Kernel.EventLog

/-! The entries on the ring. Logging erases entries at the tail, may start the time anew if there
are none, and puts one entry behind the others: what is kept by these is kept by a log call. -/

namespace Mios.EventLog

open Lib List

/-- An entry as a reader of the ring sees it. -/
structure Entry where
  level : Nat
  text : List Byte
  delta : Nat
deriving DecidableEq, Repr

variable {s : LogSize} {ef ef' : Fifo} {e : Entry} {es : List Entry} {more t : List Byte} {p : Nat}

/-! ## One entry -/

namespace Entry

def stamp (e : Entry) : List Byte := varBytes e.delta

def size (e : Entry) : Nat := 2 + e.text.length + e.stamp.length

def bytes (e : Entry) : List Byte :=
  BitVec.ofNat 8 e.size :: BitVec.ofNat 8 (e.level ||| e.stamp.length <<< 3) :: (e.text ++ e.stamp)

structure Ok (s : LogSize) (e : Entry) : Prop where
  level : e.level < 8
  text : 2 + e.text.length ≤ maxEntrySize s
  delta : e.delta < 2 ^ 56

@[simp] theorem length_bytes (e : Entry) : e.bytes.length = e.size := by
  simp [bytes, size]
  omega

theorem Ok.length_stamp (h : e.Ok s) : e.stamp.length ≤ 7 :=
  length_varBytes_le (Nat.lt_of_lt_of_eq h.delta (by decide))

theorem Ok.size_le (h : e.Ok s) : e.size ≤ maxEntrySize s + 7 := by
  have := h.text
  have := h.length_stamp
  rw [size]
  omega

end Entry

theorem maxEntrySize_le (s : LogSize) :
    2 < maxEntrySize s ∧ maxEntrySize s ≤ 192 ∧ 2 * (maxEntrySize s + 7) ≤ s.val := by
  have := s.large
  rw [maxEntrySize]
  omega

theorem flags_bits : ∀ l < 8, ∀ k < 8, (BitVec.ofNat 8 (l ||| k <<< 3)).toNat % 8 = l ∧
    (BitVec.ofNat 8 (l ||| k <<< 3)).toNat / 8 % 8 = k := by decide

/-- A reader finds the entry at the position. -/
structure At (s : LogSize) (ef : Fifo) (p : Nat) (e : Entry) : Prop where
  len : ef.entryLen s p = e.size
  level : ef.entryLevel s p = e.level
  delta : ef.evfifoReadDeltaTs s p = e.delta
  text : ef.entryText s p = e.text

/-- A copy in two parts is one around the ring. -/
theorem copy_eq_read {m : Nat → Byte} {n : Nat} (hn : n < s.val) :
    (if p % s.val ≤ (p % s.val + n) % s.val then Mem.read m (p % s.val) n
      else Mem.read m (p % s.val) (s.val - p % s.val) ++ Mem.read m 0 ((p % s.val + n) % s.val)) =
      Ring.read m 0 s.val p n := by
  have hlt := Nat.mod_lt p (Nat.zero_lt_of_lt hn)
  rcases Nat.lt_or_ge (p % s.val + n) s.val with hin | hout
  · rw [Nat.mod_eq_of_lt hin, if_pos (Nat.le_add_right _ _), Ring.read_eq_of_le (by omega),
      Nat.zero_add]
  · have hend : (p % s.val + n) % s.val = p % s.val + n - s.val := by
      rw [Nat.mod_eq_sub_mod hout, Nat.mod_eq_of_lt (by omega)]
    rw [hend, if_neg (by omega), Ring.read_eq_of_ge (by omega) hout (by omega), Nat.zero_add]

theorem at_of_read (hok : e.Ok s) (h : Ring.read ef.data 0 s.val p e.bytes.length = e.bytes) :
    At s ef p e := by
  have hmax := maxEntrySize_le s
  have hsize := hok.size_le
  have hstamp := hok.length_stamp
  have hbyte : ∀ i < 2, some (ef.byte s (p + i)) = e.bytes[i]? := by
    intro i hi
    rw [← h, Ring.getElem?_read (by rw [Entry.length_bytes, Entry.size]; omega), Nat.zero_add]
    rfl
  have hlen : ef.entryLen s p = e.size := by
    have h0 : ef.byte s p = BitVec.ofNat 8 e.size := Option.some.inj (hbyte 0 (by decide))
    rw [Fifo.entryLen, h0, BitVec.toNat_ofNat]
    exact Nat.mod_eq_of_lt (by omega)
  have h1 : ef.byte s (p + 1) = BitVec.ofNat 8 (e.level ||| e.stamp.length <<< 3) :=
    Option.some.inj (hbyte 1 (by decide))
  obtain ⟨hlevel, hbits⟩ := flags_bits e.level hok.level e.stamp.length (by omega)
  have htlen : ef.entryTlen s p = e.stamp.length := by rw [Fifo.entryTlen, h1, hbits]
  -- behind the two bytes of the header
  have hrest : Ring.read ef.data 0 s.val (p + 2) (e.text ++ e.stamp).length = e.text ++ e.stamp :=
    (@Ring.read_append _ _ _ _ _ [_, _] _ h).2
  obtain ⟨htext, hdelta⟩ := Ring.read_append hrest
  refine ⟨hlen, by rw [Fifo.entryLevel, h1, hlevel], ?_, ?_⟩
  · have hpos : p + e.size - e.stamp.length = p + 2 + e.text.length := by
      rw [Entry.size]
      omega
    rw [Fifo.evfifoReadDeltaTs, hlen, htlen, hpos, hdelta]
    exact number_varBytes (Nat.lt_trans hok.delta (by decide))
  · have hmsglen : e.size - 2 - e.stamp.length = e.text.length := by
      rw [Entry.size]
      omega
    rw [Fifo.entryText, hlen, htlen, hmsglen]
    rw [Entry.size] at hsize
    exact (copy_eq_read (by omega)).trans htext

/-! ## All entries -/

def flat (es : List Entry) : List Byte := es.flatMap Entry.bytes

@[simp] theorem flat_nil : flat [] = [] := rfl

@[simp] theorem flat_cons (e : Entry) (es : List Entry) : flat (e :: es) = e.bytes ++ flat es := rfl

@[simp] theorem flat_append (es es' : List Entry) : flat (es ++ es') = flat es ++ flat es' :=
  flatMap_append

theorem length_flat_snoc (es : List Entry) (e : Entry) :
    (flat (es ++ [e])).length = (flat es).length + e.size := by
  rw [flat_append, flat_cons, flat_nil, append_nil, length_append, Entry.length_bytes]

/-- The ring holds the entries, and behind its head some bytes of the next one. -/
structure Content (s : LogSize) (ef : Fifo) (es : List Entry) (more : List Byte) : Prop where
  ok : ∀ e ∈ es, e.Ok s
  head : ef.head = ef.tail + (flat es).length
  bytes : Ring.read ef.data 0 s.val ef.tail (flat es ++ more).length = flat es ++ more
  fits : (flat es ++ more).length ≤ s.val

theorem Content.entry_at (es₁ : List Entry) {es₂ : List Entry}
    (h : Content s ef (es₁ ++ e :: es₂) more) : At s ef (ef.tail + (flat es₁).length) e := by
  have hbytes := h.bytes
  rw [flat_append, flat_cons, append_assoc, append_assoc] at hbytes
  obtain ⟨-, hrest⟩ := Ring.read_append hbytes
  exact at_of_read (h.ok e (by simp)) (Ring.read_append hrest).1

/-- The entry at the tail is gone. -/
def Fifo.erased (ef : Fifo) (e : Entry) : Fifo :=
  { ef with
    tsTail := ef.tsTail + e.delta
    seqTail := ef.seqTail + 1
    followers := ef.followers.map (Follower.skip ef.tail e.size)
    tail := ef.tail + e.size }

theorem Content.used (h : Content s ef es more) : ef.head - ef.tail = (flat es).length := by
  rw [h.head, Nat.add_sub_cancel_left]

theorem Content.used_le (h : Content s ef es more) : (flat es).length ≤ s.val := by
  have hfits := h.fits
  rw [length_append] at hfits
  omega

theorem Entry.size_pos (e : Entry) : 2 ≤ e.size := by
  rw [size, Nat.add_assoc]
  exact Nat.le_add_right _ _

theorem eq_nil_of_flat (h : (flat es).length = 0) : es = [] := by
  cases es with
  | nil => rfl
  | cons e es =>
    have hpos := e.size_pos
    rw [flat_cons, length_append, Entry.length_bytes] at h
    omega

theorem Content.eq_nil (h : Content s ef es more) (hempty : ef.head = ef.tail) : es = [] :=
  eq_nil_of_flat (by rw [← h.used, hempty, Nat.sub_self])

theorem Content.evlEraseTail (h : Content s ef (e :: es) more) :
    ef.evlEraseTail s = ef.erased e ∧ Content s (ef.erased e) es more := by
  have hat : At s ef ef.tail e := Content.entry_at [] h
  have hpos := e.size_pos
  have hused := h.used
  rw [flat_cons, length_append, Entry.length_bytes] at hused
  have hbytes := h.bytes
  have hfits := h.fits
  rw [flat_cons, append_assoc] at hbytes hfits
  refine ⟨?_, fun e' he' => h.ok e' (mem_cons_of_mem e he'), ?_, ?_, ?_⟩
  · rw [Fifo.evlEraseTail, if_neg (by omega), hat.len, hat.delta]
    rfl
  · show ef.head = ef.tail + e.size + (flat es).length
    omega
  · show Ring.read ef.data 0 s.val (ef.tail + e.size) _ = _
    rw [← Entry.length_bytes]
    exact (Ring.read_append hbytes).2
  · rw [length_append] at hfits
    omega

/-- What a log call leaves alone until it is done. -/
structure Building (ef ef' : Fifo) : Prop where
  head : ef'.head = ef.head
  tsHead : ef'.tsHead = ef.tsHead
  logged : ef'.logged = ef.logged

theorem Building.trans {ef₁ : Fifo} (h : Building ef ef₁) (h' : Building ef₁ ef') :
    Building ef ef' :=
  ⟨h'.head.trans h.head, h'.tsHead.trans h.tsHead, h'.logged.trans h.logged⟩

/-- Kept when the entry at the tail is erased to make room, and by changes behind the head. -/
structure Kept (s : LogSize) (I : Fifo → List Entry → Prop) (head : Nat) : Prop where
  evict : ∀ ef e es more, ef.head = head → Content s ef (e :: es) more →
    s.val < ef.head - ef.tail + (maxEntrySize s + 7) → I ef (e :: es) → I (ef.erased e) es
  data : ∀ ef es d, I ef es → I { ef with data := d } es

variable {I : Fifo → List Entry → Prop} {n : Nat}

theorem Content.ensureLoop (hk : Kept s I ef.head) (hn : n ≤ maxEntrySize s + 7) {fuel : Nat}
    (h : Content s ef es more) (hI : I ef es) (hfuel : ef.head - ef.tail ≤ fuel) :
    ∃ es', Content s (Fifo.ensureLoop s n fuel ef) es' more ∧ I (Fifo.ensureLoop s n fuel ef) es' ∧
      (flat es').length + n ≤ s.val ∧ Building ef (Fifo.ensureLoop s n fuel ef) ∧
      (Fifo.ensureLoop s n fuel ef).data = ef.data := by
  have hmax := maxEntrySize_le s
  induction fuel generalizing ef es with
  | zero =>
    have hused := h.used
    exact ⟨es, h, hI, by omega, ⟨rfl, rfl, rfl⟩, rfl⟩
  | succ fuel ih =>
    have hused := h.used
    have hle := h.used_le
    rw [Fifo.ensureLoop]
    split
    · next hfull =>
      cases es with
      | nil =>
        rw [flat_nil, length_nil] at hused
        omega
      | cons e es =>
        obtain ⟨herase, hrest⟩ := h.evlEraseTail
        have hpos := e.size_pos
        rw [herase]
        rw [flat_cons, length_append, Entry.length_bytes] at hused
        have hIrest := hk.evict ef e es more rfl h (by omega) hI
        obtain ⟨es', hc, hI', hfits, hb, hd⟩ := @ih (ef.erased e) es hk hrest hIrest (by
          show ef.head - (ef.tail + e.size) ≤ fuel
          omega)
        exact ⟨es', hc, hI', hfits, ⟨hb.head, hb.tsHead, hb.logged⟩, hd⟩
    · exact ⟨es, h, hI, by omega, ⟨rfl, rfl, rfl⟩, rfl⟩

/-- There is room afterwards. -/
theorem Content.evlEnsure (hk : Kept s I ef.head) (hn : n ≤ maxEntrySize s + 7)
    (h : Content s ef es more) (hI : I ef es) :
    ∃ es', Content s (ef.evlEnsure s n) es' more ∧ I (ef.evlEnsure s n) es' ∧
      (flat es').length + n ≤ s.val ∧ Building ef (ef.evlEnsure s n) ∧
      (ef.evlEnsure s n).data = ef.data :=
  h.ensureLoop hk hn hI le_rfl

/-! ## Behind the head -/

section

variable (h : Content s ef es more)
include h

theorem Content.byte {k : Nat} (hk : k < more.length) :
    more[k]? = some (ef.byte s (ef.head + k)) := by
  have hlt : (flat es).length + k < (flat es ++ more).length := by
    rw [length_append]
    omega
  rw [Fifo.byte, h.head, Nat.add_assoc, ← Nat.zero_add ((_ + _) % _), ← Ring.getElem?_read hlt,
    h.bytes, List.getElem?_append_right (Nat.le_add_right _ _), Nat.add_sub_cancel_left]

theorem Content.store (bs : List Byte)
    (hfits : (flat es).length + (more.length + bs.length) ≤ s.val) :
    Content s { ef with data := Ring.write ef.data 0 s.val (ef.head + more.length) bs } es
      (more ++ bs) := by
  have hlen : (flat es ++ more).length + bs.length = (flat es ++ (more ++ bs)).length := by
    simp only [length_append]
    omega
  refine ⟨h.ok, h.head, ?_, by rw [← hlen, length_append]; omega⟩
  have hpos : ef.head + more.length = ef.tail + (flat es ++ more).length := by
    rw [h.head, length_append, Nat.add_assoc]
  rw [hpos, ← hlen, Ring.read_write_behind (by rw [length_append]; omega), h.bytes,
    append_assoc]

/-- The next byte, whatever it is. -/
theorem Content.grow (hfits : (flat es).length + more.length < s.val) :
    Content s ef es (more ++ [ef.byte s (ef.head + more.length)]) := by
  have hlen : (flat es ++ (more ++ [ef.byte s (ef.head + more.length)])).length =
      (flat es ++ more).length + 1 := by
    simp only [length_append, length_singleton]
    omega
  refine ⟨h.ok, h.head, ?_, by rw [hlen, length_append]; omega⟩
  rw [hlen, Ring.read_add, h.bytes, append_assoc]
  congr 3
  rw [h.head]
  simp [Ring.read, Fifo.byte, Nat.add_assoc]

theorem Content.set {k : Nat} {b : Byte} (hk : k < more.length) :
    Content s { ef with data := Ring.write ef.data 0 s.val (ef.head + k) [b] } es
      (more.set k b) := by
  have hset : flat es ++ more.set k b = (flat es ++ more).set ((flat es).length + k) b := by
    rw [set_append_right _ _ (Nat.le_add_right _ _), Nat.add_sub_cancel_left]
  have hfits := h.fits
  refine ⟨h.ok, h.head, ?_, by rw [hset, length_set]; exact hfits⟩
  rw [hset, length_set, h.head, Nat.add_assoc, Ring.read_write_set _ hfits, h.bytes]
  rw [length_append]
  omega

end

/-- The entry at the head before its last bytes are written. -/
def header (b : Byte) (t : List Byte) : List Byte := BitVec.ofNat 8 (2 + t.length) :: b :: t

/-- One entry is never too much. -/
theorem Content.not_last (h : Content s ef [e] more) :
    ¬ s.val < ef.head - ef.tail + (maxEntrySize s + 7) := by
  have hmax := maxEntrySize_le s
  have hsize := (h.ok e (.head _)).size_le
  rw [h.used, flat_cons, flat_nil, append_nil, Entry.length_bytes]
  omega

/-- The time from which the next entry counts. -/
def Fifo.base (ef : Fifo) (begun : Nat) : Nat := if ef.head = ef.tail then begun else ef.tsHead

section

variable {begun : Nat} (hk : Kept s I ef.head) (h : Content s ef es []) (hI : I ef es)
  (hreset : ef.head = ef.tail → I { ef with tsTail := begun, tsHead := begun } es)
include hk h hI hreset

theorem Content.evlogStart :
    ∃ ef' es', (ef.evlEnsure s 2).evlogStart begun = ef' ∧ Content s ef' es' [] ∧ I ef' es' ∧
      (flat es').length + 2 ≤ s.val ∧ Building { ef with tsHead := ef.base begun } ef' := by
  have hmax := maxEntrySize_le s
  by_cases hempty : ef.head = ef.tail
  · have hens : ef.evlEnsure s 2 = ef := by rw [Fifo.evlEnsure, hempty, Nat.sub_self]; rfl
    rw [hens, Fifo.evlogStart, if_pos hempty, Fifo.base, if_pos hempty]
    refine ⟨_, es, rfl, { h with }, hreset hempty, ?_, rfl, rfl, rfl⟩
    rw [← h.used, hempty]
    omega
  · -- the last entry is never erased
    have hk' : Kept s (fun ef' es' => I ef' es' ∧ es' ≠ []) ef.head := by
      refine ⟨?_, fun ef' es' d hI' => ⟨hk.data ef' es' d hI'.1, hI'.2⟩⟩
      intro ef' e' es' more' hhead hc hfull hI'
      refine ⟨hk.evict ef' e' es' more' hhead hc hfull hI'.1, ?_⟩
      rintro rfl
      exact hc.not_last hfull
    have hne : es ≠ [] := by
      rintro rfl
      exact hempty h.head
    obtain ⟨es', hc, hI', hfits, hb, -⟩ := h.evlEnsure (n := 2) hk' (by omega) ⟨hI, hne⟩
    have hhead : ¬ (ef.evlEnsure s 2).head = (ef.evlEnsure s 2).tail := by
      obtain ⟨e', es'', rfl⟩ := exists_cons_of_ne_nil hI'.2
      have hpos := e'.size_pos
      rw [hc.head, flat_cons, length_append, Entry.length_bytes]
      omega
    rw [Fifo.evlogStart, if_neg hhead, Fifo.base, if_neg hempty]
    exact ⟨_, es', rfl, hc, hI'.1, hfits, hb.head, hb.tsHead, hb.logged⟩

theorem Content.evlogBegin :
    ∃ es' b, Content s (ef.evlogBegin s begun) es' (header b []) ∧ I (ef.evlogBegin s begun) es' ∧
      Building { ef with tsHead := ef.base begun } (ef.evlogBegin s begun) := by
  obtain ⟨ef', es', heq, hc, hI', hfits, hb⟩ := h.evlogStart hk hI hreset
  rw [Fifo.evlogBegin, heq]
  refine ⟨es', _, (hc.store [2] ?_).grow ?_, hk.data _ _ _ hI', hb.head, hb.tsHead, hb.logged⟩
  · rw [length_nil, length_singleton]
    omega
  · rw [length_append, length_nil, length_singleton]
    omega

end

theorem Content.header_len {b : Byte} (h : Content s ef es (header b t))
    (ht : 2 + t.length ≤ maxEntrySize s) : ef.entryLen s ef.head = 2 + t.length := by
  have hmax := maxEntrySize_le s
  have hbyte := h.byte (Nat.zero_lt_succ _)
  have h0 : BitVec.ofNat 8 (2 + t.length) = ef.byte s ef.head := Option.some.inj hbyte
  rw [Fifo.entryLen, ← h0, BitVec.toNat_ofNat]
  exact Nat.mod_eq_of_lt (by omega)

theorem take_append_take {α : Type} (n : Nat) (a r : List α) :
    (a.take n ++ r).take n = (a ++ r).take n := by
  rw [take_append, take_append, take_take, Nat.min_self, length_take]
  congr 2
  omega

theorem Content.publish (h : Content s ef es e.bytes) (hok : e.Ok s) :
    Content s { ef with head := ef.head + e.size } (es ++ [e]) [] := by
  have hflat : flat (es ++ [e]) = flat es ++ e.bytes := by
    rw [flat_append, flat_cons, flat_nil, append_nil]
  refine ⟨?_, ?_, ?_, ?_⟩
  · intro e' he'
    rcases mem_append.mp he' with he' | he'
    · exact h.ok e' he'
    · rw [mem_singleton.mp he']
      exact hok
  · rw [hflat, length_append, Entry.length_bytes, h.head, Nat.add_assoc]
  · rw [hflat, append_nil]
    exact h.bytes
  · rw [hflat, append_nil]
    exact h.fits

section

variable {b : Byte} (h : Content s ef es (header b t)) (hk : Kept s I ef.head) (hI : I ef es)
  (ht : 2 + t.length ≤ maxEntrySize s)
include h hk hI ht

theorem Content.evlFmtCb (str : List Byte) :
    ∃ es', Content s (ef.evlFmtCb s str) es' (header b ((t ++ str).take (maxEntrySize s - 2))) ∧
      I (ef.evlFmtCb s str) es' ∧ Building ef (ef.evlFmtCb s str) := by
  have hlen := h.header_len ht
  have htake : (t ++ str).take (maxEntrySize s - 2) =
      t ++ str.take (min str.length (maxEntrySize s - (2 + t.length))) := by
    rw [take_append, take_of_length_le (by omega), Nat.min_comm,
      ← take_eq_take_min, Nat.sub_sub]
  obtain ⟨es', hc, hI', hfits, hb, hd⟩ := h.evlEnsure
    (n := 2 + t.length + min str.length (maxEntrySize s - (2 + t.length))) hk (by omega) hI
  rw [htake]
  generalize hcopy : min str.length (maxEntrySize s - (2 + t.length)) = toCopy at *
  have hbytes : (str.take toCopy).length = toCopy := by
    rw [length_take]
    omega
  have hstore := hc.store (str.take toCopy) (by
    rw [hbytes]
    show _ + (t.length + 2 + toCopy) ≤ _
    omega)
  have hset := hstore.set (b := BitVec.ofNat 8 (2 + t.length + toCopy)) (Nat.zero_lt_succ _)
  have hmore : (header b t ++ str.take toCopy).set 0 (BitVec.ofNat 8 (2 + t.length + toCopy)) =
      header b (t ++ str.take toCopy) := by
    rw [header, header, length_append, hbytes, Nat.add_assoc]
    rfl
  have heq : ef.evlFmtCb s str = { ef.evlEnsure s (2 + t.length + toCopy) with
      data := Ring.write (Ring.write (ef.evlEnsure s (2 + t.length + toCopy)).data 0 s.val
        ((ef.evlEnsure s (2 + t.length + toCopy)).head + (header b t).length) (str.take toCopy))
        0 s.val (ef.evlEnsure s (2 + t.length + toCopy)).head
        [BitVec.ofNat 8 (2 + t.length + toCopy)] } := by
    simp only [Fifo.evlFmtCb, hlen, hcopy]
    rw [header, length_cons, length_cons, Nat.add_comm 2 t.length]
  rw [heq, ← hmore]
  exact ⟨es', hset, hk.data _ _ _ hI', hb.head, hb.tsHead, hb.logged⟩

theorem Content.chunks (chunks : List (List Byte)) :
    ∃ es', Content s (chunks.foldl (Fifo.evlFmtCb s) ef) es'
        (header b ((t ++ chunks.flatten).take (maxEntrySize s - 2))) ∧
      I (chunks.foldl (Fifo.evlFmtCb s) ef) es' ∧
      Building ef (chunks.foldl (Fifo.evlFmtCb s) ef) := by
  induction chunks generalizing ef es t with
  | nil =>
    rw [flatten_nil, append_nil, take_of_length_le (by omega)]
    exact ⟨es, h, hI, rfl, rfl, rfl⟩
  | cons c cs ih =>
    obtain ⟨es₁, hc, hI₁, hb⟩ := h.evlFmtCb hk hI ht c
    have ht₁ : 2 + ((t ++ c).take (maxEntrySize s - 2)).length ≤ maxEntrySize s := by
      rw [length_take]
      omega
    obtain ⟨es', hc', hI', hb'⟩ := ih hc (by rw [hb.head]; exact hk) hI₁ ht₁
    rw [take_append_take, append_assoc, ← flatten_cons] at hc'
    exact ⟨es', hc', hI', hb.trans hb'⟩

theorem Content.evlogMsgDone (level : EventLevel) {now : Nat} (hd : now - ef.tsHead < 2 ^ 56) :
    ∃ ef' es', I ef' es' ∧ Building ef ef' ∧
      ef.evlogMsgDone s level now = { ef' with
        tsHead := now
        head := ef'.head + (Entry.mk level.toNat t (now - ef.tsHead)).size } ∧
      Content s (ef.evlogMsgDone s level now) (es' ++ [⟨level.toNat, t, now - ef.tsHead⟩]) [] := by
  have hlen := h.header_len ht
  generalize he : Entry.mk level.toNat t (now - ef.tsHead) = e
  have hok : e.Ok s := by
    subst he
    exact ⟨level.toNat_lt, ht, hd⟩
  have hstamp := hok.length_stamp
  have hsize : 2 + t.length + e.stamp.length = e.size := by rw [← he, Entry.size]
  obtain ⟨es', hc, hI', hfits, hb, -⟩ := h.evlEnsure (n := e.size) hk (by omega) hI
  have hdone : ef.evlogMsgDone s level now = { ef.evlEnsure s e.size with
      data := Ring.write (Ring.write (Ring.write (ef.evlEnsure s e.size).data 0 s.val
        ((ef.evlEnsure s e.size).head + (header b t).length) e.stamp) 0 s.val
        (ef.evlEnsure s e.size).head [BitVec.ofNat 8 e.size]) 0 s.val
        ((ef.evlEnsure s e.size).head + 1) [BitVec.ofNat 8 (e.level ||| e.stamp.length <<< 3)]
      tsHead := now
      head := (ef.evlEnsure s e.size).head + e.size } := by
    have hst : varBytes (now - ef.tsHead) = e.stamp := by rw [← he]; rfl
    have hlevel : level.toNat = e.level := by rw [← he]
    simp only [Fifo.evlogMsgDone, hlen, hst, hsize, hlevel]
    rw [header, length_cons, length_cons, Nat.add_comm 2 t.length]
  generalize ef.evlEnsure s e.size = ens at *
  have hstore := hc.store e.stamp (by
    show _ + (t.length + 2 + e.stamp.length) ≤ _
    omega)
  have hset := (hstore.set (b := BitVec.ofNat 8 e.size) (Nat.zero_lt_succ _)).set
    (b := BitVec.ofNat 8 (e.level ||| e.stamp.length <<< 3)) (Nat.succ_lt_succ (Nat.zero_lt_succ _))
  have hmore : ((header b t ++ e.stamp).set 0 (BitVec.ofNat 8 e.size)).set 1
      (BitVec.ofNat 8 (e.level ||| e.stamp.length <<< 3)) = e.bytes := by
    subst he
    rfl
  rw [hmore] at hset
  have hpub := hset.publish hok
  refine ⟨{ ens with data := (ef.evlogMsgDone s level now).data }, es', hk.data ens es' _ hI',
    ⟨hb.head, hb.tsHead, hb.logged⟩, by rw [hdone], ?_⟩
  rw [hdone]
  exact { hpub with }

end

/-- The entry of a log call. -/
def entryOf (s : LogSize) (r : Record) (base : Nat) : Entry :=
  ⟨r.level.toNat, r.text.take (maxEntrySize s - 2), r.time - base⟩

/-- The entry is complete. -/
def Fifo.published (ef : Fifo) (e : Entry) (r : Record) : Fifo :=
  { ef with tsHead := r.time, head := ef.head + e.size, logged := ef.logged ++ [r] }

/-- What erasing entries, the start of time and a new entry keep, a log call keeps. -/
theorem Content.evlog {level : EventLevel} {begun now : Nat} {chunks : List (List Byte)}
    {r : Record} (hr : ⟨level, chunks.flatten, now⟩ = r) (hk : Kept s I ef.head)
    (h : Content s ef es []) (hI : I ef es)
    (hreset : ef.head = ef.tail → I { ef with tsTail := begun, tsHead := begun } es)
    (hd : now - ef.base begun < 2 ^ 56)
    (hpub : ∀ ef' es', I ef' es' → ef'.head = ef.head → ef'.tsHead = ef.base begun →
      ef'.logged = ef.logged →
      I (ef'.published (entryOf s r (ef.base begun)) r) (es' ++ [entryOf s r (ef.base begun)])) :
    ∃ es', Content s (ef.evlog s level begun now chunks) es' [] ∧
      I (ef.evlog s level begun now chunks) es' := by
  have hmax := maxEntrySize_le s
  obtain ⟨es₁, b, hc₁, hI₁, hb₁⟩ := h.evlogBegin hk hI hreset
  obtain ⟨es₂, hc₂, hI₂, hb₂⟩ := hc₁.chunks (by rw [hb₁.head]; exact hk) hI₁
    (Nat.le_of_lt hmax.1) chunks
  have hb := hb₁.trans hb₂
  obtain ⟨ef', es', hI', hb', heq, hc⟩ := hc₂.evlogMsgDone
    (by rw [hb.head]; exact hk) hI₂ (by rw [length_take]; omega) level
    (by rw [hb.tsHead]; exact hd)
  rw [hb.tsHead, nil_append] at heq hc
  subst hr
  refine ⟨_, { hc with }, ?_⟩
  have hlast := hpub ef' es' hI' (hb'.head.trans hb.head) (hb'.tsHead.trans hb.tsHead)
    (hb'.logged.trans hb.logged)
  have hlogged : (chunks.foldl (Fifo.evlFmtCb s) (ef.evlogBegin s begun)).logged = ef'.logged :=
    hb'.logged.symm
  rw [Fifo.evlog, heq, hlogged]
  exact hlast

end Mios.EventLog
