import Mathlib.Logic.Function.Basic
import Mios.Crc32
import Mios.Lib.Loop

/-! The unwind opcodes of an exception table, and the registers of the caller they lead to. -/

namespace Mios.Unwind

open Lib

abbrev Word := BitVec 32

def bswap32 (w : Word) : Word :=
  let byte (k : Nat) : Word := ((w >>> k).setWidth 8).setWidth 32
  byte 0 <<< 24 ||| byte 8 <<< 16 ||| byte 16 <<< 8 ||| byte 24

structure OpcodeStream where
  word : Word
  ptr : Nat := 0
  validLoaded : Nat
  remainingWords : Nat := 0

section

variable (load : Nat → Word)

/-- The next opcode and the stream behind it. There is none where the source returns -1, which
leaves the stream as it is. -/
def getOpcode (ops : OpcodeStream) : Option (Byte × OpcodeStream) :=
  if ops.validLoaded ≠ 0 then
    some (ops.word.setWidth 8,
      { ops with word := ops.word >>> 8, validLoaded := ops.validLoaded - 1 })
  else if ops.remainingWords = 0 then none
  else
    let x := bswap32 (load ops.ptr)
    some (x.setWidth 8, { ops with word := x >>> 8, validLoaded := 3, ptr := ops.ptr + 4 })

abbrev Regs := BitVec 4 → Word

/-- The registers under the mask, lowest first, and the stack pointer above them. -/
def popGprs (sp : Word) (regs : Regs) (gprMask : BitVec 16) : Word × Regs :=
  (List.range 16).foldl (fun (sp, regs) reg =>
    if gprMask.getLsbD reg then
      (sp + 4, Function.update regs (BitVec.ofNat 4 reg) (load sp.toNat))
    else (sp, regs)) (sp, regs)

/-- At most `rounds` bytes; the source gives up when the shift reaches 32. -/
def uleb128 : Nat → Nat → BitVec 64 → OpcodeStream → Option (BitVec 64 × OpcodeStream)
  | 0, _, _, _ => none
  | rounds + 1, shift, value, ops => do
    let (b, ops) ← getOpcode load ops
    let value := value ||| (b &&& 0x7F).setWidth 64 <<< shift
    if b &&& 0x80 = 0 then some (value, ops) else uleb128 rounds (shift + 7) value ops

structure Exec where
  ops : OpcodeStream
  vsp : Word
  regs : Regs

/-- The error, if there is one, and the registers. -/
abbrev Result := Option String × Regs

def commit (vsp : Word) (regs : Regs) : Result :=
  let regs := Function.update regs 13 vsp
  let newPc := if regs 15 = 0 then regs 14 else regs 15
  if newPc = 0 then (some "no-pc", regs) else (none, Function.update regs 15 newPc)

def popped (ops : OpcodeStream) (vsp : Word) (regs : Regs) (mask : BitVec 16) : Round Exec Result :=
  let (vsp, regs) := popGprs load vsp regs mask
  .next ⟨ops, vsp, regs⟩

def executeOp (op : Byte) (s : Exec) : Round Exec Result :=
  let fail (err : String) : Round Exec Result := .done (some err, s.regs)
  let pop := popped load s.ops s.vsp s.regs
  let low := (1#16 <<< ((op &&& 0x07).toNat + 1) - 1) <<< 4
  if op &&& 0xC0 = 0x00 then .next { s with vsp := s.vsp + ((op &&& 0x3F).setWidth 32 <<< 2 + 4) }
  else if op &&& 0xC0 = 0x40 then
    .next { s with vsp := s.vsp - ((op &&& 0x3F).setWidth 32 <<< 2 + 4) }
  else if op = 0x80 then fail "cant-unwind"
  else if op &&& 0xF0 = 0x80 then
    match getOpcode load s.ops with
    | none => fail "bad-opcode"
    | some (op2, ops) =>
      let mask : BitVec 16 := (op &&& 0x0f).setWidth 16 <<< 12 ||| op2.setWidth 16 <<< 4
      if mask = 0 then fail "cant-unwind" else popped load ops s.vsp s.regs mask
  else if op &&& 0xF0 = 0x90 then
    let n : BitVec 4 := op.setWidth 4
    if n = 13 ∨ n = 15 then fail "bad-opcode" else .next { s with vsp := s.regs n }
  else if op &&& 0xF8 = 0xA0 then pop low
  else if op &&& 0xF8 = 0xA8 then pop (low ||| 1#16 <<< 14)
  else if op = 0xB0 then .done (commit s.vsp s.regs)
  else if op = 0xB1 then
    match getOpcode load s.ops with
    | none => fail "bad-opcode"
    | some (op2, ops) =>
      let maskLow := op2 &&& 0x0F
      if maskLow = 0 then fail "bad-opcode" else popped load ops s.vsp s.regs (maskLow.setWidth 16)
  else if op = 0xB2 then
    match uleb128 load 5 0 0 s.ops with
    | none => fail "bad-opcode"
    | some (value, ops) =>
      .next { s with ops := ops, vsp := s.vsp + (0x204#32 + value.setWidth 32 <<< 2) }
  else fail "bad-opcode"

/-- One round of `execute_opcodes`. -/
def executeRound (s : Exec) : Round Exec Result :=
  match getOpcode load s.ops with
  | none => .done (commit s.vsp s.regs)
  | some (op, ops) => executeOp load op { s with ops := ops }

def executeStart (ops : OpcodeStream) (regs : Regs) : Exec :=
  ⟨ops, regs 13, Function.update regs 15 0⟩

def prel31ToAddr (ptr : Nat) : Nat :=
  let location := load ptr &&& 0x7fffffff
  let location := if location &&& 0x40000000 ≠ 0 then location ||| ~~~0x7fffffff else location
  (location + BitVec.ofNat 32 ptr).toNat

/-- Where the entry at `e` has its opcodes if they are not in the entry itself. -/
def extab (e : Nat) : Nat := prel31ToAddr load (e + 4)

/-- The stream `backtrace_regs` makes of the entry at `e`; there is none for an entry that ends
the backtrace. -/
def entryStream (e : Nat) : Option OpcodeStream :=
  let word1 := load (e + 4)
  if word1 = 1 then none
  else if word1.msb then
    if word1 >>> 28 &&& 0xF ≠ 0x8 then none
    else some { word := bswap32 word1 >>> 8, validLoaded := 3 }
  else
    let header := load (extab load e)
    if header &&& 0xff000000 = 0x81000000 then
      some { remainingWords := (header >>> 16 &&& 0xff).toNat, word := bswap32 header >>> 16,
             validLoaded := 2, ptr := extab load e + 4 }
    else none

/-! ## What the entry announces -/

/-- The bytes of a word, highest first. -/
def wordBytes (w : Word) : List Byte :=
  [(w >>> 24).setWidth 8, (w >>> 16).setWidth 8, (w >>> 8).setWidth 8, w.setWidth 8]

/-- The number of words after the one with the entry's first opcodes. -/
def announcedWords (e : Nat) : Nat :=
  if (load (e + 4)).msb then 0 else (load (extab load e) >>> 16 &&& 0xff).toNat

/-- An entry with its opcodes inline has three of them, and one with a header two and four in each
word behind the header. -/
def announced (e : Nat) : List Byte :=
  if (load (e + 4)).msb then (wordBytes (load (e + 4))).drop 1
  else (wordBytes (load (extab load e))).drop 2 ++
    (List.range (announcedWords load e)).flatMap fun i =>
      wordBytes (load (extab load e + 4 + 4 * i))

/-- What call `i` of `get_opcode` returns. -/
def opcodeAt : Nat → OpcodeStream → Option Byte
  | 0, ops => (getOpcode load ops).map Prod.fst
  | i + 1, ops => opcodeAt i (((getOpcode load ops).map Prod.snd).getD ops)

/-- The stream has the announced opcodes and no others, and every execution of it ends. -/
def Sound (e : Nat) (ops : OpcodeStream) : Prop :=
  (∀ i, opcodeAt load i ops = (announced load e)[i]?) ∧
    ∀ regs, ∃ r, Returns (executeRound load) (executeStart ops regs) r

end

/-! ## Streams without further words -/

variable {load : Nat → Word} {ops ops' : OpcodeStream} {b : Byte} {e : Nat}

/-- The stream `ops'` is what reads left of `ops`, which has no words to load. -/
structure Left (ops ops' : OpcodeStream) : Prop where
  rest : ops'.remainingWords = 0
  lt : ops'.validLoaded < ops.validLoaded

theorem Left.trans {ops₁ : OpcodeStream} (h : Left ops ops₁) (h' : Left ops₁ ops') :
    Left ops ops' :=
  ⟨h'.rest, Nat.lt_trans h'.lt h.lt⟩

theorem left_getOpcode (h0 : ops.remainingWords = 0) (h : getOpcode load ops = some (b, ops')) :
    Left ops ops' := by
  rw [getOpcode] at h
  split at h
  next hv =>
    cases h
    exact ⟨h0, Nat.sub_one_lt hv⟩
  next => cases h

theorem left_uleb128 {rounds shift : Nat} {value value' : BitVec 64} (h0 : ops.remainingWords = 0)
    (h : uleb128 load rounds shift value ops = some (value', ops')) : Left ops ops' := by
  induction rounds generalizing shift value ops with
  | zero => cases h
  | succ rounds ih =>
    obtain ⟨⟨b, ops₁⟩, hget, h⟩ := Option.bind_eq_some_iff.mp h
    have h₁ := left_getOpcode h0 hget
    dsimp only at h
    split at h
    · cases h
      exact h₁
    · exact h₁.trans (ih h₁.rest h)

/-- The round ends or leads to a state with `P`. -/
def Goes (P : Exec → Prop) : Round Exec Result → Prop
  | .next t => P t
  | .done _ => True

theorem Goes.ite {P : Exec → Prop} {c : Prop} [Decidable c] {x y : Round Exec Result}
    (hx : Goes P x) (hy : Goes P y) : Goes P (if c then x else y) := by
  split
  · exact hx
  · exact hy

/-- An opcode reads its operands from the stream. -/
theorem executeOp_left (op : Byte) {s : Exec} (h0 : s.ops.remainingWords = 0) :
    Goes (fun t => t.ops = s.ops ∨ Left s.ops t.ops) (executeOp load op s) := by
  unfold executeOp popped
  refine .ite (.inl rfl) (.ite (.inl rfl) (.ite trivial (.ite ?mask (.ite (.ite trivial (.inl rfl))
    (.ite (.inl rfl) (.ite (.inl rfl) (.ite trivial (.ite ?maskLow (.ite ?uleb trivial)))))))))
  case mask | maskLow =>
    cases hget : getOpcode load s.ops with
    | none => trivial
    | some p => exact .ite trivial (.inr (left_getOpcode h0 hget))
  case uleb =>
    cases huleb : uleb128 load 5 0 0 s.ops with
    | none => trivial
    | some p => exact .inr (left_uleb128 h0 huleb)

theorem executeRound_left {s : Exec} (h0 : s.ops.remainingWords = 0) :
    Goes (fun t => Left s.ops t.ops) (executeRound load s) := by
  rw [executeRound]
  cases hget : getOpcode load s.ops with
  | none => trivial
  | some p =>
    obtain ⟨op, ops⟩ := p
    have hleft := left_getOpcode h0 hget
    have hop : Goes _ (executeOp load op { s with ops := ops }) := executeOp_left op hleft.rest
    dsimp only
    generalize executeOp load op _ = x at hop ⊢
    cases x with
    | done r => trivial
    | next t =>
      obtain heq | hleft' := hop
      · exact ⟨heq ▸ hleft.rest, heq ▸ hleft.lt⟩
      · exact hleft.trans hleft'

theorem execute_returns (h0 : ops.remainingWords = 0) (regs : Regs) :
    ∃ r, Returns (executeRound load) (executeStart ops regs) r := by
  have hnext : ∀ s t, s.ops.remainingWords = 0 → executeRound load s = .next t →
      t.ops.remainingWords = 0 ∧ t.ops.validLoaded < s.ops.validLoaded := by
    intro s t h0 h
    have hleft : Goes _ (executeRound load s) := executeRound_left h0
    rw [h] at hleft
    exact ⟨hleft.rest, hleft.lt⟩
  obtain ⟨r, hr, -⟩ := exists_returns (Q := fun _ => True) (fun s : Exec => s.ops.validLoaded)
    (fun _ _ _ _ => trivial) hnext (s := executeStart ops regs) h0
  exact ⟨r, hr⟩

/-- The loaded bytes come lowest first, and behind them nothing. -/
theorem opcodeAt_loaded (h0 : ops.remainingWords = 0) (i : Nat) :
    opcodeAt load i ops =
      if i < ops.validLoaded then some ((ops.word >>> (8 * i)).setWidth 8) else none := by
  induction i generalizing ops with
  | zero =>
    simp only [opcodeAt, getOpcode, h0]
    split <;> simp_all [Nat.pos_iff_ne_zero]
  | succ i ih =>
    rw [opcodeAt]
    by_cases hv : ops.validLoaded = 0
    · have hend : getOpcode load ops = none := by simp [getOpcode, hv, h0]
      rw [hend, Option.map_none, Option.getD_none, ih h0, if_neg (by omega), if_neg (by omega)]
    · have hget : getOpcode load ops = some (ops.word.setWidth 8,
          { ops with word := ops.word >>> 8, validLoaded := ops.validLoaded - 1 }) := if_pos hv
      rw [hget, Option.map_some, Option.getD_some, ih (by exact h0), ← BitVec.shiftRight_add]
      simp only [Nat.lt_sub_iff_add_lt, Nat.mul_succ, Nat.add_comm 8]

/-- Reversed, the bytes of a word come lowest first. -/
theorem wordBytes_getElem? (w : Word) (k : Nat) :
    (wordBytes w)[k]? = if k < 4 then some ((bswap32 w >>> (8 * k)).setWidth 8) else none := by
  match k with
  | 0 | 1 | 2 | 3 =>
    refine congrArg some (BitVec.eq_of_getLsbD_eq fun i hi => ?_)
    simp only [bswap32, BitVec.getLsbD_setWidth, BitVec.getLsbD_ushiftRight, BitVec.getLsbD_or,
      BitVec.getLsbD_shiftLeft]
    grind
  | k + 4 => rfl

theorem opcodeAt_wordBytes {w : Word} {p n j : Nat} (hj : j + n = 4) (i : Nat) :
    opcodeAt load i { word := bswap32 w >>> (8 * j), ptr := p, validLoaded := n } =
      ((wordBytes w).drop j)[i]? := by
  rw [opcodeAt_loaded rfl, List.getElem?_drop, wordBytes_getElem?, ← BitVec.shiftRight_add,
    Nat.mul_add]
  simp only [← hj, Nat.add_lt_add_iff_left]

/-- A stream with further words never ends. -/
theorem opcodeAt_ne_none (h : ops.remainingWords ≠ 0) (i : Nat) : opcodeAt load i ops ≠ none := by
  induction i generalizing ops with
  | zero =>
    simp only [opcodeAt, getOpcode, h]
    split <;> simp
  | succ i ih =>
    rw [opcodeAt]
    apply ih
    rw [getOpcode]
    split
    · exact h
    · exact h

/-! ## Entries -/

theorem entryStream_cases (h : entryStream load e = some ops) :
    ((load (e + 4)).msb = true ∧ ops = { word := bswap32 (load (e + 4)) >>> 8, validLoaded := 3 }) ∨
    (load (e + 4)).msb = false ∧
      ops = { remainingWords := announcedWords load e, validLoaded := 2, ptr := extab load e + 4,
              word := bswap32 (load (extab load e)) >>> 16 } := by
  obtain ⟨-, h⟩ := Option.ite_none_left_eq_some.mp h
  split at h
  · obtain ⟨-, h⟩ := Option.ite_none_left_eq_some.mp h
    exact .inl ⟨‹_›, (Option.some.inj h).symm⟩
  · obtain ⟨-, h⟩ := Option.ite_none_right_eq_some.mp h
    refine .inr ⟨Bool.eq_false_iff.mpr ‹_›, ?_⟩
    rw [announcedWords, if_neg ‹_›]
    exact (Option.some.inj h).symm

theorem remainingWords_entryStream (h : entryStream load e = some ops) :
    ops.remainingWords = announcedWords load e := by
  obtain ⟨hmsb, rfl⟩ | ⟨hmsb, rfl⟩ := entryStream_cases h
  · exact (if_pos hmsb).symm
  · rfl

/-- The stream of an entry ends only if there are no words behind the first: those that were loaded
are not counted. -/
theorem entryStream_sound_iff (h : entryStream load e = some ops) :
    Sound load e ops ↔ announcedWords load e = 0 := by
  have hrest := remainingWords_entryStream h
  constructor
  · intro hs
    by_contra hne
    apply opcodeAt_ne_none (hrest.trans_ne hne)
    exact (hs.1 _).trans (List.getElem?_eq_none (Nat.le_refl _))
  · intro h0
    refine ⟨fun i => ?_, execute_returns (hrest.trans h0)⟩
    rw [announced]
    obtain ⟨hmsb, rfl⟩ | ⟨hmsb, rfl⟩ := entryStream_cases h
    · rw [if_pos hmsb]
      exact opcodeAt_wordBytes (j := 1) (n := 3) rfl i
    · rw [if_neg (by simp [hmsb]), h0, List.range_zero, List.flatMap_nil, List.append_nil]
      exact opcodeAt_wordBytes (j := 2) (n := 2) rfl i

theorem entryStream_sound_inline :
    Sound (fun _ => 0x80B0B0B0) 0 { word := 0xB0B0B0, validLoaded := 3 } :=
  (entryStream_sound_iff rfl).mpr rfl

/-- A header that announces one word, which has zeros as all the words behind it. -/
def oneWordTable (a : Nat) : Word := if a = 4 then 4 else if a = 8 then 0x81010000 else 0

/-- A zero moves the stack pointer up, and then there is another. -/
theorem executeRound_zero {s : Exec}
    (hs : s.ops.remainingWords ≠ 0 ∧ s.ops.word = 0 ∧ 12 ≤ s.ops.ptr) :
    ∃ t, executeRound oneWordTable s = .next t ∧
      t.ops.remainingWords ≠ 0 ∧ t.ops.word = 0 ∧ 12 ≤ t.ops.ptr := by
  obtain ⟨hrest, hword, hptr⟩ := hs
  have hzero : oneWordTable s.ops.ptr = 0 := by
    rw [oneWordTable, if_neg (by omega), if_neg (by omega)]
  have hget : ∃ ops, getOpcode oneWordTable s.ops = some (0, ops) ∧ ops.remainingWords ≠ 0 ∧
      ops.word = 0 ∧ 12 ≤ ops.ptr := by
    rw [getOpcode, hword, hzero]
    split
    · exact ⟨_, rfl, hrest, rfl, hptr⟩
    · exact ⟨_, rfl, hrest, rfl, Nat.le_add_right_of_le hptr⟩
  obtain ⟨ops, hget, hops⟩ := hget
  exact ⟨_, by rw [executeRound, hget]; rfl, hops⟩

theorem execute_endless : ∃ ops, entryStream oneWordTable 0 = some ops ∧
    (announced oneWordTable 0)[6]? = none ∧ opcodeAt oneWordTable 6 ops = some 0 ∧
    ∀ regs, Diverges (executeRound oneWordTable) (executeStart ops regs) :=
  ⟨⟨0, 12, 2, 1⟩, rfl, rfl, rfl, fun _ => diverges_of_invariant (fun _ => executeRound_zero)
    ⟨Nat.one_ne_zero, rfl, Nat.le_refl 12⟩⟩

end Mios.Unwind
