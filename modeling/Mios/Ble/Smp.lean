import Mios.Crc32

/-! The BLE security manager of a peripheral (`net/ble/smp.c`), the bond table
(`net/ble/ble_bond.c`) and what they share with the link (`l2cap_t`). A handler runs to
its end before the next one starts. Random numbers and the success of allocations come in
with the event, AES and the functions of `smp_lesc.h` are parameters. What the security
manager does is collected in `out`, together with the points of a pairing that later
statements refer to. -/

namespace Mios.Ble

/-! ## Bytes -/

abbrev Bytes (n : Nat) := Vector Byte n

/-- `memcpy` from the front of a buffer. -/
def readBytes (n : Nat) (l : List Byte) : Bytes n := Vector.ofFn fun i => l.getD i 0

theorem readBytes_append {n : Nat} (v : Bytes n) (rest : List Byte) :
    readBytes n (v.toList ++ rest) = v := by
  apply Vector.ext
  intro i hi
  simp [readBytes, List.getElem?_append_left]

/-- AES and the LE Secure Connections toolbox. `f5` gives MacKey and LTK, `ecdhShared` the
DH key unless it fails. -/
structure Toolbox where
  aes128 : Bytes 16 → Bytes 16 → Bytes 16
  f4 : Bytes 32 → Bytes 32 → Bytes 16 → Byte → Bytes 16
  f5 : Bytes 32 → Bytes 16 → Bytes 16 → Bytes 7 → Bytes 7 → Bytes 16 × Bytes 16
  f6 : Bytes 16 → Bytes 16 → Bytes 16 → Bytes 16 → Bytes 3 → Bytes 7 → Bytes 7 → Bytes 16
  g2 : Bytes 32 → Bytes 32 → Bytes 16 → Bytes 16 → BitVec 32
  ah : Bytes 16 → Bytes 3 → Bytes 3
  ecdhShared : Bytes 64 → Bytes 32 → Option (Bytes 32)
  ecdhValid : Bytes 64 → Bool

/-- `smp_e`: AES over little-endian buffers. -/
def smpE (T : Toolbox) (k r : Bytes 16) : Bytes 16 := (T.aes128 k.reverse r.reverse).reverse

def xor16 (a b : Bytes 16) : Bytes 16 := Vector.zipWith (· ^^^ ·) a b

/-- `smp_c1`, the confirm value of legacy pairing. -/
def smpC1 (T : Toolbox) (k r : Bytes 16) (preq pres : Bytes 7) (iat : Byte) (ia : Bytes 6)
    (rat : Byte) (ra : Bytes 6) : Bytes 16 :=
  let p1 := readBytes 16 ([iat, rat] ++ preq.toList ++ pres.toList)
  let p2 := readBytes 16 (ra.toList ++ ia.toList)
  smpE T k (xor16 (smpE T k (xor16 r p1)) p2)

/-- `smp_s1`, the short-term key of legacy pairing. -/
def smpS1 (T : Toolbox) (k r1 r2 : Bytes 16) : Bytes 16 :=
  smpE T k (readBytes 16 (r2.toList.take 8 ++ r1.toList.take 8))

/-- The first coordinate of a public key. -/
def pubX (pub : Bytes 64) : Bytes 32 := readBytes 32 pub.toList

/-! ## Bonds -/

/-- `BLE_SEC_*` -/
inductive SecLevel where
  | none
  | encrypted
  | auth
  | authSc
  deriving DecidableEq, Repr

namespace SecLevel

def rank : SecLevel → Nat
  | .none => 0
  | .encrypted => 1
  | .auth => 2
  | .authSc => 3

instance : LE SecLevel := ⟨fun a b => a.rank ≤ b.rank⟩

instance (a b : SecLevel) : Decidable (a ≤ b) := inferInstanceAs (Decidable (a.rank ≤ b.rank))

end SecLevel

structure Bond where
  valid : Bool
  peerAddrType : Byte
  peerAddr : Bytes 6
  ltk : Bytes 16
  rand : Bytes 8
  ediv : BitVec 16
  irk : Bytes 16
  sc : Bool
  level : SecLevel
  deriving DecidableEq

def zeroBytes (n : Nat) : Bytes n := Vector.replicate n 0

def zeroBond : Bond :=
  ⟨false, 0, zeroBytes 6, zeroBytes 16, zeroBytes 8, 0, zeroBytes 16, false, .none⟩

/-- `BLE_BOND_MAX` slots. -/
abbrev Bonds := Vector Bond 4

def bleBondFindByEdiv (bonds : Bonds) (ediv : BitVec 16) (rand : Bytes 8) : Option Bond :=
  bonds.toList.find? fun b => b.valid && b.ediv == ediv && b.rand == rand

def Bond.hasIdentity (b : Bond) (addrType : Byte) (addr : Bytes 6) : Bool :=
  b.peerAddrType == addrType && b.peerAddr == addr

/-- `smp_ah` of the stored IRK resolves a private address. -/
def Bond.resolves (T : Toolbox) (b : Bond) (addr : Bytes 6) : Bool :=
  T.ah b.irk.reverse #v[addr[5], addr[4], addr[3]] == #v[addr[2], addr[1], addr[0]]

/-- By identity address, then by IRK if the address is a resolvable one, then the only
Secure Connections bond there is. -/
def bleBondFindByAddr (T : Toolbox) (bonds : Bonds) (addr : Bytes 6) (addrType : Byte) :
    Option Bond :=
  let sc := bonds.toList.filter fun b => b.valid && b.sc
  match sc.find? (·.hasIdentity addrType addr) with
  | some b => some b
  | none =>
      match (if addr[5] &&& 0xc0 == 0x40 then sc.find? (·.resolves T addr) else none) with
      | some b => some b
      | none => if sc.length = 1 then sc.getLast? else none

/-- The slot of this identity, else a free one, else the first. -/
def bondSlot (bonds : Bonds) (b : Bond) : Nat :=
  match bonds.toList.findIdx? fun c => c.valid && c.hasIdentity b.peerAddrType b.peerAddr with
  | some i => i
  | none => (bonds.toList.findIdx? fun c => !c.valid).getD 0

def bleBondAdd (bonds : Bonds) (b : Bond) : Bonds :=
  bonds.setIfInBounds (bondSlot bonds b) { b with valid := true }

def bleBondClear : Bonds := Vector.replicate 4 zeroBond

/-! ## State -/

inductive SmpState where
  | idle
  | w4Confirm
  | w4Random
  | w4Ltk
  | w4Enc
  | w4Keys
  | encrypted
  | lescW4Pubkey
  | lescW4Nrand
  | lescW4Dhkchk
  deriving DecidableEq, Repr

inductive Method where
  | justWorks
  | numericComparison
  deriving DecidableEq, Repr

/-- `struct smp`, without the scratch memory. -/
structure Smp where
  state : SmpState
  preq : Bytes 7
  pres : Bytes 7
  mconfirm : Bytes 16
  srand : Bytes 16
  stk : Bytes 16
  bonding : Bool
  initKd : Byte
  respKd : Byte
  gotIrk : Bool
  gotIdAddr : Bool
  sc : Bool
  method : Method
  userOk : Bool
  eaReceived : Bool
  ourPub : Bytes 64
  ourPriv : Bytes 32
  peerPub : Bytes 64
  dhkey : Bytes 32
  na : Bytes 16
  nb : Bytes 16
  mackey : Bytes 16
  ea : Bytes 16
  iocapInit : Bytes 3
  iocapResp : Bytes 3
  bond : Bond

/-- `memset(s, 0, sizeof(smp_t))` -/
def zeroSmp : Smp :=
  { state := .idle, preq := zeroBytes 7, pres := zeroBytes 7, mconfirm := zeroBytes 16
    srand := zeroBytes 16, stk := zeroBytes 16, bonding := false, initKd := 0, respKd := 0
    gotIrk := false, gotIdAddr := false, sc := false, method := .justWorks, userOk := false
    eaReceived := false, ourPub := zeroBytes 64, ourPriv := zeroBytes 32
    peerPub := zeroBytes 64, dhkey := zeroBytes 32, na := zeroBytes 16, nb := zeroBytes 16
    mackey := zeroBytes 16, ea := zeroBytes 16, iocapInit := zeroBytes 3
    iocapResp := zeroBytes 3, bond := zeroBond }

/-- Where a key for the controller comes from. -/
inductive KeySource where
  | stk
  | lesc
  | bond (b : Bond)
  deriving DecidableEq

inductive Obs where
  | send (pdu : List Byte)
  | started
  | failed
  | shown (value : Nat)
  | confirmed
  | verified
  | derived (ltk : Bytes 16)
  | reply (source : KeySource) (key : Bytes 16)
  | reject
  | encryption (enabled : Bool)
  | distributed (ltk : Bytes 16)
  | bondAdd (b : Bond)
  deriving DecidableEq

/-- The part of `l2cap_t` that the security manager uses, and the bond table. `canEncrypt`
says that `l2c_ltk_reply` is set, `smpSignal` is `L2CAP_SIGNAL_SMP`. -/
structure L2cap where
  ourAddr : Bytes 6
  ourAddrType : Byte
  peerAddr : Bytes 6
  peerAddrType : Byte
  canEncrypt : Bool
  secLevel : SecLevel
  pendingSecLevel : SecLevel
  smp : Option Smp
  bonds : Bonds
  smpSignal : Bool
  out : List Obs

/-- What one event finds: whether the n-th PDU gets a buffer, whether the pairing state can
be allocated, what `ble_rand` gives, and a key pair unless its generation fails. -/
structure In where
  alloc : Nat → Bool
  allocSmp : Bool
  rand16 : Bytes 16
  rand8 : Bytes 8
  rand2 : BitVec 16
  keygen : Option (Bytes 64 × Bytes 32)

namespace L2cap

def log (l : L2cap) (o : Obs) : L2cap := { l with out := l.out ++ [o] }

def setSmp (l : L2cap) (s : Smp) : L2cap := { l with smp := some s }

end L2cap

/-! ## Sending -/

def smpSend (alloc : Bool) (l : L2cap) (pdu : List Byte) : L2cap :=
  if alloc then l.log (.send pdu) else l

/-- `smp_fail`. Only the state is reset. -/
def smpFail (i : In) (l : L2cap) (reason : Byte) : L2cap :=
  let l := smpSend (i.alloc 0) l [0x05, reason]
  { l with smp := l.smp.map fun s : Smp => { s with state := .idle } }.log .failed

def errConfirmFailed : Byte := 0x04
def errPairingNotsupp : Byte := 0x05
def errEncKeySize : Byte := 0x06
def errCmdNotsupp : Byte := 0x07
def errUnspecified : Byte := 0x08
def errDhkeyCheck : Byte := 0x0b

def authBonding : Byte := 0x01
def authMitm : Byte := 0x04
def authSc : Byte := 0x08
def distEnc : Byte := 0x01
def distId : Byte := 0x02

/-! ## Legacy pairing -/

/-- The negotiation that a Pairing Request starts; nothing else of an earlier pairing is
reset. -/
def negotiate (s : Smp) (pdu : List Byte) : Smp :=
  let authReq := pdu.getD 3 0
  let bonding := authReq &&& authBonding != 0
  let sc := authReq &&& authSc != 0
  let respKd := if bonding && !sc then pdu.getD 6 0 &&& distEnc else 0
  let initKd := if bonding then pdu.getD 5 0 &&& distId else 0
  let rsp : Bytes 7 := #v[0x02, 0x01, 0,
    (if bonding then authBonding else 0) ||| authMitm ||| (if sc then authSc else 0), 16, initKd,
    respKd]
  { s with preq := readBytes 7 pdu, pres := rsp, bonding := bonding, sc := sc, respKd := respKd,
           initKd := initKd }

/-- Numeric Comparison is for two sides that can show and confirm a value. -/
def lescMethod (pdu : List Byte) : Method :=
  let io := pdu.getD 1 0
  if pdu.getD 3 0 &&& authMitm != 0 && (io == 0x01 || io == 0x04) then .numericComparison
  else .justWorks

def handlePairingRequest (i : In) (l : L2cap) (s : Smp) (pdu : List Byte) : L2cap :=
  if pdu.length < 7 then smpFail i (l.setSmp s) errUnspecified
  else if (pdu.getD 4 0).toNat < 7 then smpFail i (l.setSmp s) errEncKeySize
  else
    let s := negotiate s pdu
    let l := l.log .started
    if s.sc then
      let s := { s with
        iocapInit := #v[s.preq[3], s.preq[2], s.preq[1]]
        iocapResp := #v[s.pres[3], s.pres[2], s.pres[1]]
        method := lescMethod pdu
        state := .lescW4Pubkey }
      smpSend (i.alloc 0) (l.setSmp s) s.pres.toList
    else
      let s := { s with srand := i.rand16, state := .w4Confirm }
      smpSend (i.alloc 0) (l.setSmp s) s.pres.toList

/-- `c1` under the all-zero key of Just Works, for this connection. -/
def confirmValue (T : Toolbox) (l : L2cap) (s : Smp) (r : Bytes 16) : Bytes 16 :=
  smpC1 T (zeroBytes 16) r s.preq s.pres l.peerAddrType l.peerAddr l.ourAddrType l.ourAddr

def handlePairingConfirm (T : Toolbox) (i : In) (l : L2cap) (s : Smp) (pdu : List Byte) : L2cap :=
  if s.state ≠ .w4Confirm ∨ pdu.length < 17 then smpFail i (l.setSmp s) errUnspecified
  else
    let s := { s with mconfirm := readBytes 16 (pdu.drop 1) }
    smpSend (i.alloc 0) (l.setSmp { s with state := .w4Random })
      (0x03 :: (confirmValue T l s s.srand).toList)

def handlePairingRandom (T : Toolbox) (i : In) (l : L2cap) (s : Smp) (pdu : List Byte) : L2cap :=
  if s.state ≠ .w4Random ∨ pdu.length < 17 then smpFail i (l.setSmp s) errUnspecified
  else
    let mrand := readBytes 16 (pdu.drop 1)
    if confirmValue T l s mrand ≠ s.mconfirm then smpFail i (l.setSmp s) errConfirmFailed
    else
      let s := { s with
        stk := smpS1 T (zeroBytes 16) s.srand mrand
        bond := { s.bond with level := .encrypted }
        state := .w4Ltk }
      smpSend (i.alloc 0) ((l.log .verified).setSmp s) (0x04 :: s.srand.toList)

/-! ## LE Secure Connections -/

/-- `lesc_addr`: the type, then the address, most significant byte first. -/
def lescAddr (type : Byte) (addr : Bytes 6) : Bytes 7 := readBytes 7 (type :: addr.reverse.toList)

/-- A public key as it is sent: both coordinates little-endian. -/
def wirePub (pub : Bytes 64) : List Byte :=
  (pub.toList.take 32).reverse ++ (pub.toList.drop 32).reverse

def handleLescPublicKey (T : Toolbox) (i : In) (l : L2cap) (s : Smp) (pdu : List Byte) : L2cap :=
  if s.state ≠ .lescW4Pubkey ∨ pdu.length < 65 then smpFail i (l.setSmp s) errUnspecified
  else
    let s := { s with peerPub := readBytes 64 (wirePub (readBytes 64 (pdu.drop 1))) }
    if !T.ecdhValid s.peerPub then smpFail i (l.setSmp s) errUnspecified
    else match i.keygen with
      | none => smpFail i (l.setSmp s) errUnspecified
      | some (pub, priv) =>
          let s := { s with ourPub := pub, ourPriv := priv }
          match T.ecdhShared s.peerPub s.ourPriv with
          | none => smpFail i (l.setSmp s) errUnspecified
          | some dhkey =>
              let s := { s with dhkey := dhkey, nb := i.rand16, state := .lescW4Nrand }
              let cb := T.f4 (pubX s.ourPub) (pubX s.peerPub) s.nb 0
              let l := smpSend (i.alloc 0) (l.setSmp s) (0x0c :: wirePub s.ourPub)
              smpSend (i.alloc 1) l (0x03 :: cb.reverse.toList)

/-- The level a pairing by this method achieves. -/
def Method.level : Method → SecLevel
  | .numericComparison => .authSc
  | .justWorks => .encrypted

/-- `lesc_try_finish`, once the check value of the central and the answer of the user are
there. -/
def lescTryFinish (T : Toolbox) (i : In) (l : L2cap) (s : Smp) : L2cap :=
  if !s.eaReceived || !s.userOk then l.setSmp s
  else
    let aInit := lescAddr l.peerAddrType l.peerAddr
    let aResp := lescAddr l.ourAddrType l.ourAddr
    let (mackey, ltk) := T.f5 s.dhkey s.na s.nb aInit aResp
    let s := { s with mackey := mackey }
    if T.f6 mackey s.na s.nb (zeroBytes 16) s.iocapInit aInit aResp ≠ s.ea then
      smpFail i (l.setSmp s) errDhkeyCheck
    else
      let eb := T.f6 mackey s.nb s.na (zeroBytes 16) s.iocapResp aResp aInit
      let l := smpSend (i.alloc 0) l (0x0d :: eb.reverse.toList)
      let s := { s with
        bond := { s.bond with ltk := ltk.reverse, ediv := 0, rand := zeroBytes 8, sc := true,
                              level := s.method.level }
        state := .w4Ltk }
      { l with pendingSecLevel := s.bond.level }.log (.derived s.bond.ltk) |>.setSmp s

def handleLescRandom (T : Toolbox) (i : In) (l : L2cap) (s : Smp) (pdu : List Byte) : L2cap :=
  if s.state ≠ .lescW4Nrand ∨ pdu.length < 17 then smpFail i (l.setSmp s) errUnspecified
  else
    let s := { s with na := (readBytes 16 (pdu.drop 1)).reverse, state := .lescW4Dhkchk }
    let l := smpSend (i.alloc 0) l (0x04 :: s.nb.reverse.toList)
    match s.method with
    | .numericComparison =>
        let v := (T.g2 (pubX s.peerPub) (pubX s.ourPub) s.na s.nb).toNat % 1000000
        (l.log (.shown v)).setSmp { s with userOk := false }
    | .justWorks => l.setSmp { s with userOk := true }

def handleLescDhkeyCheck (T : Toolbox) (i : In) (l : L2cap) (s : Smp) (pdu : List Byte) : L2cap :=
  if s.state ≠ .lescW4Dhkchk ∨ pdu.length < 17 then smpFail i (l.setSmp s) errUnspecified
  else
    lescTryFinish T i l
      { s with ea := (readBytes 16 (pdu.drop 1)).reverse, eaReceived := true }

/-- `smp_numeric_confirm`, from the command line. The flag is `ERR_BAD_STATE`. -/
def smpNumericConfirm (T : Toolbox) (i : In) (l : L2cap) : L2cap × Bool :=
  match l.smp with
  | none => (l, true)
  | some s =>
      if s.state ≠ .lescW4Dhkchk ∨ s.method ≠ .numericComparison ∨ s.userOk = true then (l, true)
      else (lescTryFinish T i (l.log .confirmed) { s with userOk := true }, false)

/-! ## Key distribution -/

def smpPersistBond (l : L2cap) (s : Smp) : L2cap :=
  let bond :=
    if s.gotIdAddr then s.bond
    else { s.bond with peerAddr := l.peerAddr, peerAddrType := l.peerAddrType }
  { l with bonds := bleBondAdd l.bonds bond }.log (.bondAdd bond) |>.setSmp
    { s with bond := bond, state := .encrypted }

def smpKeysMaybeDone (l : L2cap) (s : Smp) : L2cap :=
  if s.initKd &&& distId != 0 && (!s.gotIrk || !s.gotIdAddr) then l.setSmp s
  else smpPersistBond l s

def handleIdentityInfo (l : L2cap) (s : Smp) (pdu : List Byte) : L2cap :=
  if s.state ≠ .w4Keys ∨ pdu.length < 17 then l.setSmp s
  else smpKeysMaybeDone l
    { s with bond := { s.bond with irk := readBytes 16 (pdu.drop 1) }, gotIrk := true }

def handleIdentityAddrInfo (l : L2cap) (s : Smp) (pdu : List Byte) : L2cap :=
  if s.state ≠ .w4Keys ∨ pdu.length < 8 then l.setSmp s
  else smpKeysMaybeDone l
    { s with
      bond := { s.bond with peerAddrType := pdu.getD 1 0, peerAddr := readBytes 6 (pdu.drop 2) }
      gotIdAddr := true }

/-- Distribute a fresh LTK. That it is on its way is noted when its PDU got a buffer. -/
def distributeLtk (i : In) (l : L2cap) (s : Smp) : L2cap × Smp :=
  let s := { s with bond := { s.bond with ltk := i.rand16, rand := i.rand8, ediv := i.rand2 } }
  let l := smpSend (i.alloc 0) l (0x06 :: s.bond.ltk.toList)
  let l := if i.alloc 0 then l.log (.distributed s.bond.ltk) else l
  let l := smpSend (i.alloc 1) l
    (0x07 :: i.rand2.setWidth 8 :: (i.rand2 >>> 8).setWidth 8 :: s.bond.rand.toList)
  (l, s)

/-- `smp_encrypted`, deferred to the network thread. It looks at the flags of the last
Pairing Request, whichever key the link was encrypted with. -/
def smpEncrypted (i : In) (l : L2cap) : L2cap :=
  match l.smp with
  | none => l
  | some s =>
      if !s.bonding then l.setSmp { s with state := .encrypted }
      else
        let s := { s with state := .w4Keys }
        let (l, s) := if s.respKd &&& distEnc != 0 then distributeLtk i l s else (l, s)
        if s.initKd = 0 then smpPersistBond l s else l.setSmp s

/-! ## PDUs -/

def handlePdu (T : Toolbox) (i : In) (l : L2cap) (s : Smp) (pdu : List Byte) : L2cap :=
  match (pdu.getD 0 0).toNat with
  | 0x01 => handlePairingRequest i l s pdu
  | 0x0c => handleLescPublicKey T i l s pdu
  | 0x03 => handlePairingConfirm T i l s pdu
  | 0x04 => if s.sc then handleLescRandom T i l s pdu else handlePairingRandom T i l s pdu
  | 0x0d => handleLescDhkeyCheck T i l s pdu
  | 0x08 => handleIdentityInfo l s pdu
  | 0x09 => handleIdentityAddrInfo l s pdu
  | 0x06 | 0x07 | 0x0a => l.setSmp s -- keys that are not stored
  | 0x05 => (l.log .failed).setSmp { s with state := .idle }
  | _ => smpFail i (l.setSmp s) errCmdNotsupp

def smpInput (T : Toolbox) (i : In) (l : L2cap) (pdu : List Byte) : L2cap :=
  if pdu.length < 1 ∨ 65 < pdu.length then l
  else if !l.canEncrypt then smpFail i l errPairingNotsupp
  else match l.smp with
    | some s => handlePdu T i l s pdu
    | none => if i.allocSmp then handlePdu T i l zeroSmp pdu else smpFail i l errUnspecified

/-! ## Events -/

/-- `smp_request_security` -/
def smpRequestSecurity (i : In) (l : L2cap) : L2cap :=
  if !l.canEncrypt then l
  else smpSend (i.alloc 0) l [0x0b, authBonding ||| authSc ||| authMitm]

/-- The pairing whose key the controller asks for: it has just finished, and EDIV and Rand
are zero. -/
def L2cap.finished (l : L2cap) (random : BitVec 64) (ediv : BitVec 16) : Option Smp :=
  l.smp.filter fun s => s.state == .w4Ltk && random == 0 && ediv == 0

def Smp.keySource (s : Smp) : KeySource := if s.sc then .lesc else .stk

def Smp.key (s : Smp) : Bytes 16 := if s.sc then s.bond.ltk else s.stk

/-- The bond that a reconnecting central selects. -/
def L2cap.findBond (T : Toolbox) (l : L2cap) (random : BitVec 64) (ediv : BitVec 16) :
    Option Bond :=
  if ediv = 0 ∧ random = 0 then bleBondFindByAddr T l.bonds l.peerAddr l.peerAddrType
  else bleBondFindByEdiv l.bonds ediv (Vector.ofFn fun i => (random >>> (i.val * 8)).setWidth 8)

def smpLtkRequest (T : Toolbox) (l : L2cap) (random : BitVec 64) (ediv : BitVec 16) : L2cap :=
  match l.finished random ediv with
  | some s => (l.setSmp { s with state := .w4Enc }).log (.reply s.keySource s.key)
  | none =>
      match l.findBond T random ediv with
      | some b => { l with pendingSecLevel := b.level }.log (.reply (.bond b) b.ltk)
      | none => l.log .reject

def smpEncryptionChanged (l : L2cap) (enabled : Bool) : L2cap :=
  if enabled then
    { l with secLevel := l.pendingSecLevel, smpSignal := true }.log (.encryption true)
  else
    { l with
      secLevel := .none
      smp := l.smp.map fun s : Smp => { s with state := .idle } }.log (.encryption false)

inductive Event where
  | pdu (i : In) (data : List Byte)
  | confirm (i : In)
  | ltkRequest (random : BitVec 64) (ediv : BitVec 16)
  | encryptionChange (enabled : Bool)
  | smpTask (i : In)
  | requestSecurity (i : In)
  | bondsClear

/-- One event. The task runs `smp_encrypted` if its signal is raised. -/
def L2cap.step (T : Toolbox) (l : L2cap) (e : Event) : L2cap :=
  let l := { l with out := [] }
  match e with
  | .pdu i data => smpInput T i l data
  | .confirm i => (smpNumericConfirm T i l).1
  | .ltkRequest random ediv => smpLtkRequest T l random ediv
  | .encryptionChange enabled => smpEncryptionChanged l enabled
  | .smpTask i => if l.smpSignal then smpEncrypted i { l with smpSignal := false } else l
  | .requestSecurity i => smpRequestSecurity i l
  | .bondsClear => { l with bonds := bleBondClear }

/-- `l2cap_connect`, for a central with this address and with the bonds there are. -/
def l2capConnect (ourAddr peerAddr : Bytes 6) (ourAddrType peerAddrType : Byte) (canEncrypt : Bool)
    (bonds : Bonds) : L2cap :=
  ⟨ourAddr, ourAddrType, peerAddr, peerAddrType, canEncrypt, .none, .encrypted, none, bonds, false, []⟩

/-! ## A central without secrets -/

/-- A toolbox in which nothing is secret. -/
def zeroToolbox : Toolbox where
  aes128 _ _ := zeroBytes 16
  f4 _ _ _ _ := zeroBytes 16
  f5 _ _ _ _ _ := (zeroBytes 16, zeroBytes 16)
  f6 _ _ _ _ _ _ _ := zeroBytes 16
  g2 _ _ _ _ := 0
  ah _ _ := zeroBytes 3
  ecdhShared _ _ := some (zeroBytes 32)
  ecdhValid _ := true

/-- Everything is allocated, all random numbers are zero. -/
def zeroIn : In := ⟨fun _ => true, true, zeroBytes 16, zeroBytes 8, 0, none⟩

end Mios.Ble
