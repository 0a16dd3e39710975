import Mios.Lib.AltBit
import Mios.Pbuf

/-! The VLLP frame header `SEFL_CCCC`, the length adaptation for FDCAN, and the
reading of a frame as an alternating-bit frame. Shared by the device
(`net/vllp.c`) and the host (`host/dsig/vllp.c`), which repeat these definitions. -/

namespace Mios.Vllp

open Lib Crc32

/-! ## Header -/

def hdrByte (s e f l : Bool) (channel : Nat) : Byte :=
  (if s then 0x80 else 0) ||| (if e then 0x40 else 0) ||| (if f then 0x20 else 0) |||
    (if l then 0x10 else 0) ||| BitVec.ofNat 8 channel

def hdrS (b : Byte) : Bool := b &&& 0x80 != 0
def hdrE (b : Byte) : Bool := b &&& 0x40 != 0
def hdrF (b : Byte) : Bool := b &&& 0x20 != 0
def hdrL (b : Byte) : Bool := b &&& 0x10 != 0
def hdrChannel (b : Byte) : Nat := (b &&& 0xf).toNat

theorem hdrChannel_lt (b : Byte) : hdrChannel b < 16 := by
  have h : ∀ b : Byte, hdrChannel b < 16 := by decide
  exact h b

theorem hdrByte_read (s e f l : Bool) (channel : Nat) (h : channel < 16) :
    hdrS (hdrByte s e f l channel) = s ∧ hdrE (hdrByte s e f l channel) = e ∧
      hdrF (hdrByte s e f l channel) = f ∧ hdrL (hdrByte s e f l channel) = l ∧
      hdrChannel (hdrByte s e f l channel) = channel := by
  have hall : ∀ c : Fin 16, hdrS (hdrByte s e f l c) = s ∧ hdrE (hdrByte s e f l c) = e ∧
      hdrF (hdrByte s e f l c) = f ∧ hdrL (hdrByte s e f l c) = l ∧
      hdrChannel (hdrByte s e f l c) = c := by
    cases s <;> cases e <;> cases f <;> cases l <;> decide
  exact hall ⟨channel, h⟩

/-- `VLLP_SYN`: the header of a link request. -/
def synByte : Byte := 0x0f

def vllpVersion : Byte := 2

/-- `(u8[0] & 0x1f) == 0x1f` -/
def isAck (b : Byte) : Bool := b &&& 0x1f == 0x1f

/-- The channel of the channel management protocol. -/
def cmcId : Nat := 14

/-- A pure acknowledgement header `SE | 0x1f`, and what both ends read from it. -/
def ackByte (s e : Bool) : Byte := hdrByte s e false true 15

theorem ackByte_read (s e : Bool) :
    isAck (ackByte s e) = true ∧ ackByte s e ≠ synByte ∧ hdrS (ackByte s e) = s ∧
      hdrE (ackByte s e) = e ∧ hdrChannel (ackByte s e) = 15 := by
  cases s <;> cases e <;> decide

/-- Data headers are neither acknowledgements nor link requests. -/
theorem hdrByte_data (s e f l : Bool) (channel : Nat) (h : channel < 15) :
    isAck (hdrByte s e f l channel) = false ∧ hdrByte s e f l channel ≠ synByte := by
  have hall : ∀ c : Fin 15, isAck (hdrByte s e f l c) = false ∧ hdrByte s e f l c ≠ synByte := by
    cases s <;> cases e <;> cases f <;> cases l <;> decide
  exact hall ⟨channel, h⟩

/-! ## FDCAN lengths -/

def fdcanAdapationPadLadder (len : Nat) : Nat :=
  if len < 12 then 12
  else if len < 16 then 16
  else if len < 20 then 20
  else if len < 24 then 24
  else if len < 32 then 32
  else if len < 48 then 48
  else 64

/-- The last byte of a padded frame holds the number of bytes to strip. -/
def stripPad (frame : List Byte) : Option (List Byte) :=
  if 8 < frame.length then
    let pad := (frame.getLastD 0).toNat
    if frame.length ≤ pad then none else some (frame.take (frame.length - pad))
  else some frame

/-- The header stays. -/
theorem stripPad_head {frame f : List Byte} (h : stripPad frame = some f) (hne : f ≠ []) :
    f.head? = frame.head? := by
  simp only [stripPad] at h
  split at h
  · split at h
    · cases h
    cases h
    rw [List.head?_take, if_neg]
    intro h0
    rw [h0, List.take_zero] at hne
    exact hne rfl
  · cases h
    rfl

/-- A frame longer than 8 bytes gets `fill` bytes and a count, up to an FDCAN length. -/
def addPad (fill : List Byte) (frame : List Byte) : List Byte :=
  if 8 < frame.length then
    let pad := fdcanAdapationPadLadder frame.length - frame.length
    frame ++ (fill.take (pad - 1) ++ List.replicate (pad - 1 - fill.length) 0) ++
      [BitVec.ofNat 8 pad]
  else frame

theorem padLadder_bounds (len : Nat) (h : len < 64) :
    len < fdcanAdapationPadLadder len ∧ fdcanAdapationPadLadder len ≤ 64 := by
  unfold fdcanAdapationPadLadder
  repeat' split
  all_goals omega

/-- What was padded is recovered, whatever the padding bytes are. -/
theorem stripPad_addPad (fill frame : List Byte) (h : frame.length < 64) :
    stripPad (addPad fill frame) = some frame := by
  unfold addPad
  by_cases h8 : 8 < frame.length
  · simp only [if_pos h8]
    obtain ⟨hlo, hhi⟩ := padLadder_bounds frame.length h
    generalize hpad : fdcanAdapationPadLadder frame.length - frame.length = pad
    have h2 : pad < 256 := by omega
    generalize hf : fill.take (pad - 1) ++ List.replicate (pad - 1 - fill.length) (0 : Byte) = f
    have hflen : f.length = pad - 1 := by
      rw [← hf]
      simp
      omega
    have hlen : (frame ++ f ++ [BitVec.ofNat 8 pad]).length = frame.length + pad := by
      simp
      omega
    have hlast : ((frame ++ f ++ [BitVec.ofNat 8 pad]).getLastD 0).toNat = pad := by
      rw [List.getLastD_eq_getLast?, List.getLast?_append]
      simpa using h2
    unfold stripPad
    simp only [hlen, hlast, if_pos (show 8 < frame.length + pad by omega),
      if_neg (show ¬ frame.length + pad ≤ pad by omega), Nat.add_sub_cancel]
    rw [List.append_assoc, List.take_append_of_le_length (Nat.le_refl _), List.take_length]
  · simp [stripPad, h8]

/-! ## Fragments and observable events -/

structure Frag where
  channel : Nat
  last : Bool
  payload : List Byte
  deriving DecidableEq, Repr

/-- A frame without its padding, read as an alternating-bit frame. -/
def readFrame : List Byte → AltBit.Frame Frag
  | [] => ⟨false, false, none⟩
  | b :: payload =>
      ⟨hdrS b, hdrE b,
        if hdrChannel b = 15 then none else some ⟨hdrChannel b, hdrL b, payload⟩⟩

/-- A pure acknowledgement: the bits, the flow status and a CRC under the cookie. -/
def ackFrame (iv : BitVec 32) (s e : Bool) (flow : BitVec 16) : List Byte :=
  let pkt := [ackByte s e, flow.setWidth 8, (flow >>> 8).setWidth 8]
  pkt ++ le32 (~~~crc32 iv pkt)

theorem ackFrame_length (iv : BitVec 32) (s e : Bool) (flow : BitVec 16) :
    (ackFrame iv s e flow).length = 7 := by
  simp [ackFrame, le32_length]

theorem ackFrame_read (iv : BitVec 32) (s e : Bool) (flow : BitVec 16) :
    readFrame ((stripPad (ackFrame iv s e flow)).getD []) = ⟨s, e, none⟩ := by
  have hstrip : stripPad (ackFrame iv s e flow) = some (ackFrame iv s e flow) := by
    simp [stripPad, ackFrame_length]
  obtain ⟨-, -, hs, he, hc⟩ := ackByte_read s e
  rw [hstrip]
  simp [ackFrame, readFrame, hs, he, hc]

/-- What an end does that its peer, the wire or the application can notice. -/
inductive Ev where
  | tx (frame : List Byte)
  | start (f : Frag)
  | accept (f : Frag)
  | discard (f : Frag)
  | push (channel : Nat) (pkt : Pbuf.Chain)
  | deliver (channel : Nat) (msg : List Byte)
  | close (channel : Nat)
  deriving DecidableEq, Repr

/-- The events the alternating-bit layer sees. -/
def acts : List Ev → List (AltBit.Act Frag)
  | [] => []
  | .tx frame :: evs => .send (readFrame ((stripPad frame).getD [])) :: acts evs
  | .start f :: evs => .start f :: acts evs
  | .accept f :: evs => .accept f :: acts evs
  | .discard f :: evs => .discard f :: acts evs
  | _ :: evs => acts evs

theorem acts_append (a b : List Ev) : acts (a ++ b) = acts a ++ acts b := by
  induction a with
  | nil => rfl
  | cons e a ih => cases e <;> simp [acts, ih]

/-- The frames among some events, in sending order. -/
def txs : List Ev → List (List Byte)
  | [] => []
  | .tx frame :: evs => frame :: txs evs
  | _ :: evs => txs evs

theorem mem_txs {frame : List Byte} {evs : List Ev} : frame ∈ txs evs ↔ .tx frame ∈ evs := by
  induction evs with
  | nil => simp [txs]
  | cons e evs ih => cases e <;> simp [txs, ih]

/-- A frame on the wire as the alternating-bit layer sees it. -/
def decode (frame : List Byte) : AltBit.Frame Frag := readFrame ((stripPad frame).getD [])

theorem sent_acts (evs : List Ev) : AltBit.sent (acts evs) = (txs evs).map decode := by
  induction evs with
  | nil => rfl
  | cons e evs ih => cases e <;> simp [acts, txs, AltBit.sent, decode, ih]

/-- Between the logs `out` and `out'` the endpoint performed `as`; on a link of 8 byte
frames it sent no longer ones. -/
def Emits (mtu : Nat) (out : List Ev) (as : List (AltBit.Act Frag)) (out' : List Ev) : Prop :=
  ∃ evs, out' = out ++ evs ∧ acts evs = as ∧
    ∀ frame, .tx frame ∈ evs → mtu ≤ 8 → frame.length ≤ 8

theorem Emits.refl (mtu : Nat) (out : List Ev) : Emits mtu out [] out := ⟨[], by simp, rfl, by simp⟩

theorem Emits.trans {mtu : Nat} {out out' out'' : List Ev} {as bs : List (AltBit.Act Frag)}
    (h : Emits mtu out as out') (h' : Emits mtu out' bs out'') : Emits mtu out (as ++ bs) out'' := by
  obtain ⟨evs, rfl, rfl, hshort⟩ := h
  obtain ⟨evs', rfl, rfl, hshort'⟩ := h'
  refine ⟨evs ++ evs', by simp, acts_append _ _, ?_⟩
  intro frame hf
  rcases List.mem_append.mp hf with hf | hf
  · exact hshort frame hf
  · exact hshort' frame hf

theorem Emits.one (mtu : Nat) (out : List Ev) (e : Ev)
    (h : ∀ frame, e = .tx frame → mtu ≤ 8 → frame.length ≤ 8) :
    Emits mtu out (acts [e]) (out ++ [e]) :=
  ⟨[e], rfl, rfl, fun frame hf => h frame (List.mem_singleton.mp hf).symm⟩

/-- Padding starts above 8 bytes. -/
theorem addPad_short (fill frame : List Byte) (h : frame.length ≤ 8) : addPad fill frame = frame :=
  if_neg (by omega)

theorem addPad_head (fill : List Byte) (b : Byte) (payload : List Byte) :
    (addPad fill (b :: payload)).head? = some b := by
  unfold addPad
  split <;> simp

/-! ## Endpoints

What the device and the host have in common, seen from the link. -/

structure Endpoint where
  view : AltBit.View Frag
  out : List Ev
  connected : Bool
  crcIV : BitVec 32
  mtu : Nat

namespace Endpoint

/-- From `x` to `y` the end only started and sent fragments, beginning with the view
`w`; the session is the same. -/
structure SendsFrom (w : AltBit.View Frag) (x y : Endpoint) : Prop where
  acts : ∃ as, Emits x.mtu x.out as y.out ∧ AltBit.Local w as y.view
  connected : y.connected = x.connected
  crcIV : y.crcIV = x.crcIV
  mtu : y.mtu = x.mtu

abbrev Sends (x y : Endpoint) : Prop := SendsFrom x.view x y

/-- Nothing the peer could notice happened. -/
structure Quiet (x y : Endpoint) : Prop where
  out : Emits x.mtu x.out [] y.out
  view : y.view = x.view
  connected : y.connected = x.connected
  crcIV : y.crcIV = x.crcIV
  mtu : y.mtu = x.mtu

/-- Handling a frame within a session, or without one. -/
structure Handles (x : Endpoint) (frame : List Byte) (y : Endpoint) : Prop where
  acts : ∃ as, Emits x.mtu x.out as y.out ∧ AltBit.Receive (readFrame frame) x.view as y.view
  connected : y.connected = x.connected
  crcIV : y.crcIV = x.crcIV
  mtu : y.mtu = x.mtu

/-- The end of a session, or nothing without one. -/
structure Ends (x y : Endpoint) : Prop where
  out : Emits x.mtu x.out [] y.out
  connected : y.connected = false
  crcIV : y.crcIV = x.crcIV
  mtu : y.mtu = x.mtu

variable {w : AltBit.View Frag} {x y z : Endpoint}

theorem Quiet.refl (x : Endpoint) : Quiet x x := ⟨.refl _ _, rfl, rfl, rfl, rfl⟩

theorem Quiet.sends (h : Quiet x y) : Sends x y :=
  ⟨⟨[], h.out, h.view ▸ .nil _⟩, h.connected, h.crcIV, h.mtu⟩

theorem Quiet.handles {frame : List Byte} (hq : Quiet x y) (h : Handles y frame z) :
    Handles x frame z := by
  obtain ⟨⟨as, has, hrecv⟩, hconn, hiv, hmtu⟩ := h
  exact ⟨⟨as, hq.out.trans (hq.mtu ▸ has), hq.view ▸ hrecv⟩, hconn.trans hq.connected,
    hiv.trans hq.crcIV, hmtu.trans hq.mtu⟩

theorem Quiet.ends (hq : Quiet x y) (h : Ends y z) : Ends x z :=
  ⟨hq.out.trans (hq.mtu ▸ h.out), h.connected, h.crcIV.trans hq.crcIV, h.mtu.trans hq.mtu⟩

theorem SendsFrom.trans (h : SendsFrom w x y) (h' : Sends y z) : SendsFrom w x z := by
  obtain ⟨⟨as, has, hl⟩, hconn, hiv, hmtu⟩ := h
  obtain ⟨⟨bs, hbs, hl'⟩, hconn', hiv', hmtu'⟩ := h'
  exact ⟨⟨as ++ bs, has.trans (hmtu ▸ hbs), hl.trans hl'⟩, hconn'.trans hconn,
    hiv'.trans hiv, hmtu'.trans hmtu⟩

theorem SendsFrom.handles (h : Sends x y) (frame : List Byte) : Handles x frame y := by
  obtain ⟨⟨as, has, hl⟩, hconn, hiv, hmtu⟩ := h
  exact ⟨⟨as, has, hl.receive⟩, hconn, hiv, hmtu⟩

/-- A frame with the current bits that carries nothing or the outstanding fragment. -/
theorem sends_frame (frame : List Byte) (hout : y.out = x.out ++ [.tx frame])
    (hview : y.view = x.view) (hconn : y.connected = x.connected) (hiv : y.crcIV = x.crcIV)
    (hmtu : y.mtu = x.mtu) (hs : (readFrame ((stripPad frame).getD [])).s = x.view.s)
    (he : (readFrame ((stripPad frame).getD [])).e = x.view.e)
    (hpay : ∀ f, (readFrame ((stripPad frame).getD [])).pay = some f → x.view.cur = some f)
    (hshort : x.mtu ≤ 8 → frame.length ≤ 8) : Sends x y := by
  refine ⟨⟨[.send (readFrame ((stripPad frame).getD []))], ?_, ?_⟩, hconn, hiv, hmtu⟩
  · rw [hout]
    exact .one x.mtu x.out _ (by rintro _ ⟨⟩; exact hshort)
  · rw [hview]
    exact .send _ hs he hpay (.nil _)

end Endpoint

/-- The header and payload of a data frame read back, or as nothing on the channel
number that stands for an acknowledgement. -/
theorem dataFrame_read (fill : List Byte) (s e f l : Bool) (channel : Nat) (payload : List Byte)
    (hc : channel < 16) (hlen : payload.length < 63) :
    readFrame ((stripPad (addPad fill (hdrByte s e f l channel :: payload))).getD []) =
      ⟨s, e, if channel = 15 then none else some ⟨channel, l, payload⟩⟩ := by
  obtain ⟨hs, he, -, hl, hch⟩ := hdrByte_read s e f l channel hc
  rw [stripPad_addPad fill _ (by simp; omega)]
  simp [readFrame, hs, he, hl, hch]

end Mios.Vllp
