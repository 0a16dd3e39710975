import Mios.Lib.Ones
import Mios.Net.Input

/-! The Internet checksum over a packet. Each segment is added by itself, in words of the byte order
of the CPU, which is little-endian. -/

namespace Mios.Net

open Lib List

/-! ## The checksum -/

/-- The words of a byte range, with a zero behind an odd byte at the end. -/
def words : List Byte → List Nat
  | [] => []
  | [b] => [b.toNat]
  | b :: c :: bs => (b.toNat + 256 * c.toNat) :: words bs

/-- The one's-complement sum of an initial sum and the words of a range. -/
def onesSum (sum : Nat) (bs : List Byte) : Nat :=
  (words bs).foldl (Ones.add 0xffff) (Ones.norm 0xffff sum)

def checksum (sum : Nat) (bs : List Byte) : Nat := 0xffff - onesSum sum bs

variable {sum : Nat}

theorem words_le (bs : List Byte) : ∀ w ∈ words bs, w ≤ 0xffff := by
  induction bs using words.induct with
  | case1 => simp [words]
  | case2 b =>
    intro w hw
    have := mem_singleton.mp hw
    have := b.isLt
    omega
  | case3 b c bs ih =>
    intro w hw
    rcases mem_cons.mp hw with rfl | hw
    · have := b.isLt
      have := c.isLt
      omega
    · exact ih w hw

theorem onesSum_eq (sum : Nat) (bs : List Byte) :
    onesSum sum bs = Ones.norm 0xffff (sum + (words bs).sum) :=
  Ones.foldl_add (by decide) (words_le bs)

theorem norm_round (sum : Nat) :
    Ones.norm 0xffff (sum / 65536 + sum % 65536) = Ones.norm 0xffff sum :=
  calc Ones.norm 0xffff (sum / 65536 + sum % 65536)
      = Ones.norm 0xffff ((0xffff + 1) * (sum / 65536) + sum % 65536) := Ones.norm_carry.symm
    _ = Ones.norm 0xffff sum := by rw [Nat.div_add_mod]

theorem ipv4CksumFold_eq (h : sum < 2 ^ 32) : ipv4CksumFold sum = Ones.norm 0xffff sum := by
  have hle : ipv4CksumFold sum ≤ 0xffff := by
    simp only [ipv4CksumFold]
    omega
  rw [← Ones.norm_of_le hle]
  exact (norm_round _).trans (norm_round sum)

theorem ipv4CksumAdd_eq {bs : List Byte} (h : sum < 2 ^ 32) :
    ipv4CksumAdd sum bs = (sum + (words bs).sum) % 2 ^ 32 := by
  induction bs using words.induct generalizing sum with
  | case1 => exact (Nat.mod_eq_of_lt h).symm
  | case2 b => rfl
  | case3 b c bs ih =>
    rw [ipv4CksumAdd, ih (Nat.mod_lt _ (by decide)), words, sum_cons, Nat.mod_add_mod]
    congr 1
    omega

/-! ## Bytes in odd places -/

/-- The sum of the words of a range whose first byte is the second one of a word, or the first. -/
def placed (odd : Bool) : List Byte → Nat
  | [] => 0
  | b :: bs => (if odd then 256 * b.toNat else b.toNat) + placed (!odd) bs

/-- The bytes in even places less those in odd places. -/
def alternating : List Byte → Int
  | [] => 0
  | b :: bs => b.toNat - alternating bs

theorem sum_words (bs : List Byte) : (words bs).sum = placed false bs := by
  induction bs using words.induct with
  | case1 => rfl
  | case2 b => simp [words, placed]
  | case3 b c bs ih =>
    simp only [words, sum_cons, placed, ih, Bool.not_false, Bool.not_true, if_true,
      Bool.false_eq_true, if_false]
    omega

theorem placed_eq_zero (odd : Bool) (bs : List Byte) : placed odd bs = 0 ↔ ∀ b ∈ bs, b.toNat = 0 := by
  induction bs generalizing odd with
  | nil => simp [placed]
  | cons b bs ih =>
    rw [placed, Nat.add_eq_zero_iff, ih, forall_mem_cons]
    cases odd <;> simp

theorem placed_append (odd : Bool) (bs cs : List Byte) :
    placed odd (bs ++ cs) = placed odd bs + placed (odd ^^ bs.length % 2 == 1) cs := by
  induction bs generalizing odd with
  | nil => simp [placed]
  | cons b bs ih =>
    have hodd : (!odd ^^ bs.length % 2 == 1) = (odd ^^ (b :: bs).length % 2 == 1) := by
      rw [length_cons]
      rcases Nat.mod_two_eq_zero_or_one bs.length with h | h <;>
        simp [h, Nat.add_mod]
    rw [cons_append, placed, placed, ih, hodd, Nat.add_assoc]

theorem placed_true (bs : List Byte) :
    (placed true bs : Int) = placed false bs + 255 * alternating bs ∧
      (placed false bs : Int) = placed true bs - 255 * alternating bs := by
  induction bs with
  | nil => exact ⟨rfl, rfl⟩
  | cons b bs ih =>
    simp only [placed, alternating, Bool.not_true, Bool.not_false, if_true, Bool.false_eq_true,
      if_false]
    omega

/-! ## The pieces of a range -/

/-- What each segment has of a range. -/
def pieces : Packet → Nat → Nat → List (List Byte)
  | [], _, _ => []
  | s :: c, offset, length =>
    if length = 0 then []
    else if s.buflen < offset then pieces c (offset - s.buflen) length
    else
      let clen := min length (s.buflen - offset)
      bytesAt s offset clen :: pieces c 0 (length - clen)

/-- Over the pieces that begin in an odd place of the range: the bytes that are added in the first
place of a word, less those in the second. -/
def misplaced (odd : Bool) : List (List Byte) → Int
  | [] => 0
  | p :: ps => (if odd then alternating p else 0) + misplaced (odd ^^ p.length % 2 == 1) ps

/-- The sum with the words of each piece by itself. -/
def added (sum : Nat) (ps : List (List Byte)) : Nat := sum + (ps.map fun p => (words p).sum).sum

theorem flatten_pieces (c : Packet) (offset length : Nat) :
    (pieces c offset length).flatten = ((Packet.content c).drop offset).take length := by
  induction c generalizing offset length with
  | nil => simp [pieces]
  | cons s c ih =>
    unfold pieces
    by_cases h0 : length = 0
    · simp [h0]
    rw [if_neg h0]
    by_cases hlt : s.buflen < offset
    · rw [if_pos hlt, ih, Packet.drop_content_ge hlt.le]
    rw [if_neg hlt, Packet.drop_content_le (Nat.le_of_not_lt hlt)]
    have hbuf : (s.dropFront offset).buflen = s.buflen - offset := rfl
    simp only [flatten_cons, ih, drop_zero]
    rcases Nat.le_total length (s.buflen - offset) with hle | hge
    · rw [Nat.min_eq_left hle, Nat.sub_self, take_zero, append_nil,
        Packet.take_content_le (by rw [hbuf]; exact hle), Segment.window, Mem.take_read, hbuf,
        Nat.min_eq_left hle]
      rfl
    · rw [Nat.min_eq_right hge, Packet.take_content_ge (by rw [hbuf]; exact hge)]
      rfl

theorem cksumSum_eq (c : Packet) (sum offset length : Nat) :
    cksumSum sum c offset length = (pieces c offset length).foldl ipv4CksumAdd sum := by
  induction c generalizing sum offset length with
  | nil => rfl
  | cons s c ih =>
    unfold cksumSum pieces
    by_cases h0 : length = 0
    · simp only [if_pos h0]
      rfl
    simp only [if_neg h0]
    by_cases hlt : s.buflen < offset
    · simp only [if_pos hlt]
      exact ih _ _ _
    · simp only [if_neg hlt, foldl_cons]
      exact ih _ _ _

theorem foldl_cksumAdd (ps : List (List Byte)) (h : sum < 2 ^ 32) :
    ps.foldl ipv4CksumAdd sum = added sum ps % 2 ^ 32 := by
  induction ps generalizing sum with
  | nil => exact (Nat.mod_eq_of_lt h).symm
  | cons p ps ih =>
    rw [foldl_cons, ipv4CksumAdd_eq h, ih (Nat.mod_lt _ (by decide)), added, added, Nat.mod_add_mod,
      map_cons, sum_cons, Nat.add_assoc]

/-- What the words of the pieces miss of the words of the range. -/
theorem placed_flatten (odd : Bool) (ps : List (List Byte)) :
    (placed odd ps.flatten : Int) =
      (ps.map fun p => (words p).sum).sum + 255 * misplaced odd ps := by
  induction ps generalizing odd with
  | nil => rfl
  | cons p ps ih =>
    have htrue := (placed_true p).1
    rw [flatten_cons, placed_append, Int.natCast_add, ih, map_cons, sum_cons, misplaced, sum_words]
    cases odd with
    | true =>
      simp only [if_true]
      omega
    | false =>
      simp only [Bool.false_eq_true, if_false]
      omega

theorem added_eq_zero (sum : Nat) (ps : List (List Byte)) :
    sum + (words ps.flatten).sum = 0 ↔ added sum ps = 0 := by
  have hpiece (p : List Byte) : (words p).sum = 0 ↔ ∀ b ∈ p, b.toNat = 0 := by
    rw [sum_words, placed_eq_zero]
  rw [added, Nat.add_eq_zero_iff, Nat.add_eq_zero_iff, hpiece,
    List.sum_eq_zero_iff_forall_eq_nat]
  simp only [mem_flatten, mem_map, forall_exists_index, and_imp, forall_apply_eq_imp_iff₂, hpiece]
  exact and_congr_right fun _ => ⟨fun h p hp b hb => h b p hp hb, fun h b p hp hb => h p hp b hb⟩

/-- The checksum of a range is right if and only if 65535 divides 255 times what is misplaced plus
the number of carries that are lost, and the sum has not become zero by losing one. -/
theorem cksum_of_range (c : Packet) (sum offset length : Nat) (hsum : sum < 2 ^ 32) :
    ipv4CksumPbuf sum c offset length =
      checksum sum (((Packet.content c).drop offset).take length) ↔
    (255 * misplaced false (pieces c offset length) +
        (added sum (pieces c offset length) / 2 ^ 32 : Nat)) % 65535 = 0 ∧
      (added sum (pieces c offset length) % 2 ^ 32 = 0 → added sum (pieces c offset length) = 0) := by
  have hzero := added_eq_zero sum (pieces c offset length)
  have hdue := placed_flatten false (pieces c offset length)
  have hinj (n k : Nat) : 0xffff - Ones.norm 0xffff n = 0xffff - Ones.norm 0xffff k ↔
      Ones.norm 0xffff n = Ones.norm 0xffff k := by
    have hn := Ones.norm_le (n := n) (by decide : 0 < 0xffff)
    have hk := Ones.norm_le (n := k) (by decide : 0 < 0xffff)
    omega
  rw [← sum_words] at hdue
  rw [ipv4CksumPbuf, checksum, cksumSum_eq, ← flatten_pieces, foldl_cksumAdd _ hsum,
    ipv4CksumFold_eq (Nat.mod_lt _ (by decide)), onesSum_eq, hinj, Ones.norm_inj, hzero]
  have hadded : added sum (pieces c offset length) =
    sum + ((pieces c offset length).map fun p => (words p).sum).sum := rfl
  generalize (words (pieces c offset length).flatten).sum = due at *
  generalize ((pieces c offset length).map fun p => (words p).sum).sum = w at *
  generalize misplaced false (pieces c offset length) = x at *
  generalize added sum (pieces c offset length) = n at *
  refine and_congr ?_ ⟨fun h => h.mp, fun h => ⟨h, fun h0 => by rw [h0, Nat.zero_mod]⟩⟩
  omega

/-- A packet in segments that hold `bs` and `cs`. -/
def inTwo (bs cs : List Byte) : Packet :=
  [⟨0, 0, 1, 0, bs.length + cs.length, 0, bs.length, fun i => bs.getD i 0⟩,
    ⟨1, 1, 2, 0, 0, 0, cs.length, fun i => cs.getD i 0⟩]

/-- A first segment of three bytes: the odd pieces do not matter, since they hold zeros. -/
theorem cksum_of_range_zeros :
    ipv4CksumPbuf 5 (inTwo [1, 2, 3] [0, 0]) 0 5 = checksum 5 [1, 2, 3, 0, 0] :=
  (cksum_of_range (inTwo [1, 2, 3] [0, 0]) 5 0 5 (by decide)).mpr (by decide)

/-- Three bytes in segments of one and two, and one byte with an initial sum of all ones. -/
theorem cksum_of_split_range : ipv4CksumPbuf 0 (inTwo [1] [2, 3]) 0 3 ≠
      checksum 0 (((Packet.content (inTwo [1] [2, 3])).drop 0).take 3) ∧
    ipv4CksumPbuf 4294967295 (inTwo [1] []) 0 1 ≠
      checksum 4294967295 (((Packet.content (inTwo [1] [])).drop 0).take 1) := by
  decide

end Mios.Net
