/-! CRC-32 as the device (`util/crc32.c`) and the host (`host/dsig/vllp.c`) compute
it: one table lookup per byte, the running value passed in and out without
inversion. The two programs carry the same table. -/

namespace Mios

open BitVec

abbrev Byte := BitVec 8

namespace Crc32

def crc32table : List (BitVec 32) :=
  [
   0xd202ef8d, 0xa505df1b, 0x3c0c8ea1, 0x4b0bbe37, 0xd56f2b94, 0xa2681b02,
   0x3b614ab8, 0x4c667a2e, 0xdcd967bf, 0xabde5729, 0x32d70693, 0x45d03605,
   0xdbb4a3a6, 0xacb39330, 0x35bac28a, 0x42bdf21c, 0xcfb5ffe9, 0xb8b2cf7f,
   0x21bb9ec5, 0x56bcae53, 0xc8d83bf0, 0xbfdf0b66, 0x26d65adc, 0x51d16a4a,
   0xc16e77db, 0xb669474d, 0x2f6016f7, 0x58672661, 0xc603b3c2, 0xb1048354,
   0x280dd2ee, 0x5f0ae278, 0xe96ccf45, 0x9e6bffd3, 0x0762ae69, 0x70659eff,
   0xee010b5c, 0x99063bca, 0x000f6a70, 0x77085ae6, 0xe7b74777, 0x90b077e1,
   0x09b9265b, 0x7ebe16cd, 0xe0da836e, 0x97ddb3f8, 0x0ed4e242, 0x79d3d2d4,
   0xf4dbdf21, 0x83dcefb7, 0x1ad5be0d, 0x6dd28e9b, 0xf3b61b38, 0x84b12bae,
   0x1db87a14, 0x6abf4a82, 0xfa005713, 0x8d076785, 0x140e363f, 0x630906a9,
   0xfd6d930a, 0x8a6aa39c, 0x1363f226, 0x6464c2b0, 0xa4deae1d, 0xd3d99e8b,
   0x4ad0cf31, 0x3dd7ffa7, 0xa3b36a04, 0xd4b45a92, 0x4dbd0b28, 0x3aba3bbe,
   0xaa05262f, 0xdd0216b9, 0x440b4703, 0x330c7795, 0xad68e236, 0xda6fd2a0,
   0x4366831a, 0x3461b38c, 0xb969be79, 0xce6e8eef, 0x5767df55, 0x2060efc3,
   0xbe047a60, 0xc9034af6, 0x500a1b4c, 0x270d2bda, 0xb7b2364b, 0xc0b506dd,
   0x59bc5767, 0x2ebb67f1, 0xb0dff252, 0xc7d8c2c4, 0x5ed1937e, 0x29d6a3e8,
   0x9fb08ed5, 0xe8b7be43, 0x71beeff9, 0x06b9df6f, 0x98dd4acc, 0xefda7a5a,
   0x76d32be0, 0x01d41b76, 0x916b06e7, 0xe66c3671, 0x7f6567cb, 0x0862575d,
   0x9606c2fe, 0xe101f268, 0x7808a3d2, 0x0f0f9344, 0x82079eb1, 0xf500ae27,
   0x6c09ff9d, 0x1b0ecf0b, 0x856a5aa8, 0xf26d6a3e, 0x6b643b84, 0x1c630b12,
   0x8cdc1683, 0xfbdb2615, 0x62d277af, 0x15d54739, 0x8bb1d29a, 0xfcb6e20c,
   0x65bfb3b6, 0x12b88320, 0x3fba6cad, 0x48bd5c3b, 0xd1b40d81, 0xa6b33d17,
   0x38d7a8b4, 0x4fd09822, 0xd6d9c998, 0xa1def90e, 0x3161e49f, 0x4666d409,
   0xdf6f85b3, 0xa868b525, 0x360c2086, 0x410b1010, 0xd80241aa, 0xaf05713c,
   0x220d7cc9, 0x550a4c5f, 0xcc031de5, 0xbb042d73, 0x2560b8d0, 0x52678846,
   0xcb6ed9fc, 0xbc69e96a, 0x2cd6f4fb, 0x5bd1c46d, 0xc2d895d7, 0xb5dfa541,
   0x2bbb30e2, 0x5cbc0074, 0xc5b551ce, 0xb2b26158, 0x04d44c65, 0x73d37cf3,
   0xeada2d49, 0x9ddd1ddf, 0x03b9887c, 0x74beb8ea, 0xedb7e950, 0x9ab0d9c6,
   0x0a0fc457, 0x7d08f4c1, 0xe401a57b, 0x930695ed, 0x0d62004e, 0x7a6530d8,
   0xe36c6162, 0x946b51f4, 0x19635c01, 0x6e646c97, 0xf76d3d2d, 0x806a0dbb,
   0x1e0e9818, 0x6909a88e, 0xf000f934, 0x8707c9a2, 0x17b8d433, 0x60bfe4a5,
   0xf9b6b51f, 0x8eb18589, 0x10d5102a, 0x67d220bc, 0xfedb7106, 0x89dc4190,
   0x49662d3d, 0x3e611dab, 0xa7684c11, 0xd06f7c87, 0x4e0be924, 0x390cd9b2,
   0xa0058808, 0xd702b89e, 0x47bda50f, 0x30ba9599, 0xa9b3c423, 0xdeb4f4b5,
   0x40d06116, 0x37d75180, 0xaede003a, 0xd9d930ac, 0x54d13d59, 0x23d60dcf,
   0xbadf5c75, 0xcdd86ce3, 0x53bcf940, 0x24bbc9d6, 0xbdb2986c, 0xcab5a8fa,
   0x5a0ab56b, 0x2d0d85fd, 0xb404d447, 0xc303e4d1, 0x5d677172, 0x2a6041e4,
   0xb369105e, 0xc46e20c8, 0x72080df5, 0x050f3d63, 0x9c066cd9, 0xeb015c4f,
   0x7565c9ec, 0x0262f97a, 0x9b6ba8c0, 0xec6c9856, 0x7cd385c7, 0x0bd4b551,
   0x92dde4eb, 0xe5dad47d, 0x7bbe41de, 0x0cb97148, 0x95b020f2, 0xe2b71064,
   0x6fbf1d91, 0x18b82d07, 0x81b17cbd, 0xf6b64c2b, 0x68d2d988, 0x1fd5e91e,
   0x86dcb8a4, 0xf1db8832, 0x616495a3, 0x1663a535, 0x8f6af48f, 0xf86dc419,
   0x660951ba, 0x110e612c, 0x88073096, 0xff000000]

def crc32Byte (crc : BitVec 32) (b : Byte) : BitVec 32 :=
  crc32table.getD (crc.setWidth 8 ^^^ b).toNat 0 ^^^ (crc >>> 8)

def crc32 (crc : BitVec 32) : List Byte → BitVec 32
  | [] => crc
  | b :: bs => crc32 (crc32Byte crc b) bs

/-- The four bytes of a word, least significant first. -/
def le32 (x : BitVec 32) : List Byte :=
  [x.setWidth 8, (x >>> 8).setWidth 8, (x >>> 16).setWidth 8, (x >>> 24).setWidth 8]

/-- Read a word back from memory. -/
def ofLe32 : List Byte → BitVec 32
  | b0 :: b1 :: b2 :: b3 :: _ => b3 ++ b2 ++ b1 ++ b0
  | _ => 0

theorem crc32_append (crc : BitVec 32) (a b : List Byte) :
    crc32 crc (a ++ b) = crc32 (crc32 crc a) b := by
  induction a generalizing crc with
  | nil => rfl
  | cons x a ih => simp [crc32, ih]

@[simp] theorem le32_length (x : BitVec 32) : (le32 x).length = 4 := rfl

theorem ofLe32_le32 (x : BitVec 32) (bs : List Byte) : ofLe32 (le32 x ++ bs) = x := by
  simp only [le32, ofLe32, List.cons_append]
  apply eq_of_getLsbD_eq
  intro i hi
  simp only [getLsbD_append, getLsbD_setWidth, getLsbD_ushiftRight]
  grind

/-! ## The residue

A byte equal to the complement of the running value's low byte hits the last table
entry, so that feeding the complement of a CRC shifts ones in from the top. -/

theorem crc32Byte_complement (c : BitVec 32) (b : Byte)
    (h : c.setWidth 8 ^^^ b = BitVec.allOnes 8) : crc32Byte c b = 0xff000000#32 ^^^ (c >>> 8) := by
  simp only [crc32Byte, h]
  rfl

theorem complement_byte (c m : BitVec 32) (n : Nat) (hn : n ≤ 24) (hm : m.setWidth 8 = 0#8) :
    (m ^^^ (c >>> n)).setWidth 8 ^^^ (~~~c >>> n).setWidth 8 = BitVec.allOnes 8 := by
  ext i hi
  have hmi : m.getLsbD i = false := by
    have := congrArg (fun v => v.getLsbD i) hm
    simpa [hi] using this
  have hlt : n + i < 32 := by omega
  rw [getElem_allOnes]
  simp [getElem_setWidth, hmi, getLsbD_ushiftRight, hlt]

/-- A message followed by the complement of its CRC checks to all ones, for every
initial value. -/
theorem crc32_complement (c : BitVec 32) : crc32 c (le32 (~~~c)) = BitVec.allOnes 32 := by
  have h0 := complement_byte c 0#32 0 (by decide) (by decide)
  have h1 := complement_byte c 0xff000000#32 8 (by decide) (by decide)
  have h2 := complement_byte c 0xffff0000#32 16 (by decide) (by decide)
  have h3 := complement_byte c 0xffffff00#32 24 (by decide) (by decide)
  simp only [ushiftRight_zero, zero_xor] at h0
  have e1 : 0xff000000#32 ^^^ (0xff000000#32 ^^^ c >>> 8) >>> 8 = 0xffff0000#32 ^^^ c >>> 16 := by
    rw [ushiftRight_xor_distrib, ← xor_assoc, ← shiftRight_add]; rfl
  have e2 : 0xff000000#32 ^^^ (0xffff0000#32 ^^^ c >>> 16) >>> 8 = 0xffffff00#32 ^^^ c >>> 24 := by
    rw [ushiftRight_xor_distrib, ← xor_assoc, ← shiftRight_add]; rfl
  have e3 : 0xff000000#32 ^^^ (0xffffff00#32 ^^^ c >>> 24) >>> 8 = BitVec.allOnes 32 := by
    rw [ushiftRight_xor_distrib, ← xor_assoc, ← shiftRight_add]
    have hz : c >>> (24 + 8) = 0#32 := ushiftRight_eq_zero (by decide)
    rw [hz]
    rfl
  simp only [le32, crc32]
  rw [crc32Byte_complement c _ h0, crc32Byte_complement _ _ h1, e1, crc32Byte_complement _ _ h2, e2,
    crc32Byte_complement _ _ h3, e3]

theorem crc32_append_crc (iv : BitVec 32) (m : List Byte) :
    crc32 iv (m ++ le32 (~~~crc32 iv m)) = BitVec.allOnes 32 := by
  rw [crc32_append, crc32_complement]

/-! ## The bit-serial definition -/

/-- One round of the loop in `crc32_for_byte`. -/
def serialBit (r : BitVec 32) : BitVec 32 := (if r.getLsbD 0 then 0 else 0xedb88320) ^^^ (r >>> 1)

/-- The function that the table was generated by. -/
def crc32ForByte (r : BitVec 32) : BitVec 32 := Nat.repeat serialBit 8 r ^^^ 0xff000000

/-- The bits of a message, one after the other, into the register. -/
def crc32Serial (crc : BitVec 32) (m : List Byte) : BitVec 32 :=
  m.foldl (fun crc b => crc32ForByte (crc ^^^ b.setWidth 32)) crc

theorem crc32table_eq : ∀ i < 256, crc32table.getD i 0 = crc32ForByte (BitVec.ofNat 32 i) := by
  decide +kernel

/-- What is above the bits that are shifted out only moves down. -/
theorem repeat_serialBit_xor (r : BitVec 32) {x : BitVec 32} {k : Nat}
    (hx : ∀ i < k, x.getLsbD i = false) :
    Nat.repeat serialBit k (r ^^^ x) = Nat.repeat serialBit k r ^^^ (x >>> k) := by
  induction k with
  | zero =>
    rw [ushiftRight_zero]
    rfl
  | succ k ih =>
    have hbit : (x >>> k).getLsbD 0 = false := by
      rw [getLsbD_ushiftRight]
      exact hx k (Nat.lt_succ_self k)
    rw [Nat.repeat, ih fun i hi => hx i (Nat.lt_succ_of_lt hi), Nat.repeat, serialBit,
      getLsbD_xor, hbit, Bool.xor_false, ushiftRight_xor_distrib,
      ← shiftRight_add, ← xor_assoc, ← serialBit]

theorem crc32Byte_eq (crc : BitVec 32) (b : Byte) :
    crc32Byte crc b = crc32ForByte (crc ^^^ b.setWidth 32) := by
  have hsplit : crc ^^^ b.setWidth 32 = (crc.setWidth 8 ^^^ b).setWidth 32 ^^^ crc >>> 8 <<< 8 := by
    ext i hi
    simp
    grind
  have hlow : ∀ i < 8, (crc >>> 8 <<< 8).getLsbD i = false := by
    intro i hi
    simp [hi]
  have hhigh : crc >>> 8 <<< 8 >>> 8 = crc >>> 8 := by
    ext i hi
    simp
    grind
  rw [crc32Byte, crc32table_eq _ (BitVec.isLt _), ofNat_toNat, hsplit, crc32ForByte,
    crc32ForByte, repeat_serialBit_xor _ hlow, hhigh, xor_assoc, xor_assoc,
    BitVec.xor_comm (crc >>> 8)]

theorem crc32_eq_serial (crc : BitVec 32) (m : List Byte) : crc32 crc m = crc32Serial crc m := by
  induction m generalizing crc with
  | nil => rfl
  | cons b m ih => rw [crc32, ih, crc32Byte_eq, crc32Serial, crc32Serial, List.foldl_cons]

example : crc32 0 [0x61, 0x62, 0x63, 0x64, 0x65, 0x66, 0x67, 0x68] = 0xaeef2a50#32 := by
  decide +kernel

/-- The laws that the framing layers rely on, for every initial value and every message. -/
theorem crc32_laws (iv : BitVec 32) : (∀ a b, crc32 iv (a ++ b) = crc32 (crc32 iv a) b) ∧
    (∀ m, crc32 iv (m ++ le32 (~~~crc32 iv m)) = BitVec.allOnes 32) ∧
    ∀ m, crc32 iv m = crc32Serial iv m :=
  ⟨crc32_append iv, crc32_append_crc iv, crc32_eq_serial iv⟩

end Crc32

end Mios
