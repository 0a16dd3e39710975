import Mios.Ble.Smp

/-! What a PDU can do to a pairing. Every handler of the security manager makes one of the
moves below; the statements about keys are case analyses over them. -/

namespace Mios.Ble

/-! ## Moves -/

/-- The log without the PDUs. -/
def marks (l : List Obs) : List Obs := l.filter fun o => match o with
  | .send _ => false
  | _ => true

/-- An observer whom PDUs do not matter to. -/
theorem foldl_marks {α : Type} {see : α → Obs → α} (h : ∀ a pdu, see a (.send pdu) = a) (a : α)
    (l : List Obs) : l.foldl see a = (marks l).foldl see a := by
  induction l generalizing a with
  | nil => rfl
  | cons o l ih =>
    cases o with
    | send pdu =>
      rw [List.foldl_cons, h]
      exact ih a
    | _ => exact ih _

/-- The part of the pairing state that keys depend on is unchanged; its progress may not be. -/
structure Smp.Same (s s' : Smp) : Prop where
  sc : s'.sc = s.sc
  method : s'.method = s.method
  userOk : s'.userOk = s.userOk
  respKd : s'.respKd = s.respKd
  ltk : s'.bond.ltk = s.bond.ltk
  level : s'.bond.level = s.bond.level

/-- `Move s p ms s' p'`: from pairing state `s` and pending level `p` to `s'` and `p'`, with the
marks `ms`. -/
inductive Move (s : Smp) (p : SecLevel) : List Obs → Smp → SecLevel → Prop
  | keep {s' : Smp} (hst : s'.state = s.state) (h : s.Same s') : Move s p [] s' p
  | fail {s' : Smp} (hst : s'.state = .idle) (h : s.Same s') : Move s p [.failed] s' p
  | start {s' : Smp} (hst : s'.state = .lescW4Pubkey ∨ s'.state = .w4Confirm)
      (h : s'.sc = true → s'.respKd = 0) : Move s p [.started] s' p
  | advance {s' : Smp} (hst : s'.state = .w4Random ∨ s'.state = .lescW4Nrand) (h : s.Same s') :
      Move s p [] s' p
  | verify {s' : Smp} (hst : s'.state = .w4Ltk) (hsc : s'.sc = false) : Move s p [.verified] s' p
  | compare {s' : Smp} (v : Nat) (hst : s'.state = .lescW4Dhkchk) (hu : s'.userOk = false)
      (hsc : s'.sc = s.sc) (hkd : s'.respKd = s.respKd) : Move s p [.shown v] s' p
  | justWorks {s' : Smp} (hst : s'.state = .lescW4Dhkchk) (hm : s'.method = .justWorks)
      (hsc : s'.sc = s.sc) (hkd : s'.respKd = s.respKd) : Move s p [] s' p
  | finish {s' : Smp} (ltk : Bytes 16) (hst : s.state = .lescW4Dhkchk) (huser : s.userOk = true)
      (hst' : s'.state = .w4Ltk) (hltk : s'.bond.ltk = ltk)
      (hlevel : s'.bond.level = s.method.level) (hsc : s'.sc = s.sc)
      (hkd : s'.respKd = s.respKd) : Move s p [.derived ltk] s' s.method.level
  | persist {s' : Smp} (b : Bond) (hst : s.state = .w4Keys) (hb : b.ltk = s.bond.ltk)
      (hst' : s'.state = .encrypted) (hsc : s'.sc = s.sc) (hkd : s'.respKd = s.respKd) :
      Move s p [.bondAdd b] s' p

theorem Smp.Same.refl (s : Smp) : s.Same s := by constructor <;> rfl

variable {l l' : L2cap} {ms : List Obs} {s' : Option Smp} {p' : SecLevel} {s u : Smp}

theorem Smp.Same.trans {s' s'' : Smp} (h : s.Same s') (h' : s'.Same s'') : s.Same s'' :=
  ⟨h'.sc.trans h.sc, h'.method.trans h.method, h'.userOk.trans h.userOk,
    h'.respKd.trans h.respKd, h'.ltk.trans h.ltk, h'.level.trans h.level⟩

/-- A handler may first store what it received. -/
theorem Move.of_same {s' : Smp} {p : SecLevel} (hst : u.state = s.state)
    (h : s.Same u) (hm : Move u p ms s' p') : Move s p ms s' p' := by
  cases hm with
  | keep hst' h' => exact .keep (hst'.trans hst) (h.trans h')
  | fail hst' h' => exact .fail hst' (h.trans h')
  | start hst' h' => exact .start hst' h'
  | advance hst' h' => exact .advance hst' (h.trans h')
  | verify hst' hsc => exact .verify hst' hsc
  | compare v hst' hu hsc hkd => exact .compare v hst' hu (hsc.trans h.sc) (hkd.trans h.respKd)
  | justWorks hst' hm hsc hkd => exact .justWorks hst' hm (hsc.trans h.sc) (hkd.trans h.respKd)
  | finish ltk hst₀ huser hst' hltk hlevel hsc hkd =>
    rw [h.method] at hlevel ⊢
    exact .finish ltk (hst ▸ hst₀) (h.userOk ▸ huser) hst' hltk hlevel (hsc.trans h.sc)
      (hkd.trans h.respKd)
  | persist b hst₀ hb hst' hsc hkd =>
    exact .persist b (hst ▸ hst₀) (hb.trans h.ltk) hst' (hsc.trans h.sc) (hkd.trans h.respKd)

/-! ## Handlers -/

/-- The part of the link that a move changes; PDUs do not count. -/
structure Effect (l l' : L2cap) (ms : List Obs) (s' : Option Smp) (p' : SecLevel) : Prop where
  sec : l'.secLevel = l.secLevel
  out : marks l'.out = marks l.out ++ ms
  smp : l'.smp = s'
  pending : l'.pendingSecLevel = p'

theorem Effect.refl (l : L2cap) : Effect l l [] l.smp l.pendingSecLevel :=
  ⟨rfl, (List.append_nil _).symm, rfl, rfl⟩

theorem Effect.send (h : Effect l l' ms s' p') (alloc : Bool) (pdu : List Byte) :
    Effect l (smpSend alloc l' pdu) ms s' p' := by
  cases alloc
  · exact h
  · refine ⟨h.sec, ?_, h.smp, h.pending⟩
    rw [← h.out]
    simp [smpSend, L2cap.log, marks]

theorem Effect.log (h : Effect l l' ms s' p') {o : Obs} (ho : marks [o] = [o]) :
    Effect l (l'.log o) (ms ++ [o]) s' p' := by
  refine ⟨h.sec, ?_, h.smp, h.pending⟩
  rw [← List.append_assoc, ← h.out, ← ho]
  exact List.filter_append ..

theorem Effect.setSmp
    (h : Effect l l' ms s' p') (s : Smp) : Effect l (l'.setSmp s) ms (some s) p' :=
  ⟨h.sec, h.out, rfl, h.pending⟩

/-- From pairing state `s` the link gets to `l'` by a move. -/
def Does (l : L2cap) (s : Smp) (l' : L2cap) : Prop :=
  ∃ ms s' p', Effect l l' ms (some s') p' ∧ Move s l.pendingSecLevel ms s' p'

/-- A handler may only store what it received. -/
theorem Does.keep (hst : u.state = s.state) (h : s.Same u) : Does l s (l.setSmp u) :=
  ⟨_, _, _, (Effect.refl l).setSmp u, .keep hst h⟩

theorem smpFail_effect (i : In) (l : L2cap) (reason : Byte) :
    Effect l (smpFail i l reason) [.failed]
      (l.smp.map fun s : Smp => { s with state := .idle }) l.pendingSecLevel := by
  have hsend := (Effect.refl l).send (i.alloc 0) [0x05, reason]
  have hfailed := hsend.log (o := .failed) rfl
  exact ⟨hsend.sec, hfailed.out, congrArg (Option.map _) hsend.smp, hsend.pending⟩

theorem smpFail_does (i : In) (l : L2cap) (h : s.Same u) (reason : Byte) :
    Does l s (smpFail i (l.setSmp u) reason) := by
  obtain ⟨hsec, hout, hsmp, hp⟩ := smpFail_effect i (l.setSmp u) reason
  exact ⟨[.failed], { u with state := .idle }, _, ⟨hsec, hout, hsmp, hp⟩, .fail rfl { h with }⟩

/-- A Secure Connections LTK is derived, so none is to be distributed. -/
theorem negotiate_respKd (s : Smp) (pdu : List Byte) (h : (negotiate s pdu).sc = true) :
    (negotiate s pdu).respKd = 0 := by
  have hsc : (pdu.getD 3 0 &&& authSc != 0) = true := h
  simp only [negotiate, hsc, Bool.not_true, Bool.and_false, Bool.false_eq_true, if_false]

section

variable (T : Toolbox) (i : In) (l : L2cap) (s : Smp) (pdu : List Byte)

theorem handlePairingRequest_does : Does l s (handlePairingRequest i l s pdu) := by
  have hstart := (Effect.refl l).log (o := .started) rfl
  unfold handlePairingRequest
  split
  · exact smpFail_does i l (.refl s) _
  split
  · exact smpFail_does i l (.refl s) _
  dsimp only
  split
  · rename_i hsc
    exact ⟨_, _, _, (hstart.setSmp _).send _ _, .start (.inl rfl) fun h => negotiate_respKd s pdu h⟩
  · rename_i hsc
    exact ⟨_, _, _, (hstart.setSmp _).send _ _, .start (.inr rfl) fun h => absurd h hsc⟩

theorem handlePairingConfirm_does : Does l s (handlePairingConfirm T i l s pdu) := by
  unfold handlePairingConfirm
  split
  · exact smpFail_does i l (.refl s) _
  · exact ⟨_, _, _, ((Effect.refl l).setSmp _).send _ _,
      .advance (.inl rfl) (by constructor <;> rfl)⟩

theorem handlePairingRandom_does
    (hsc : s.sc = false) : Does l s (handlePairingRandom T i l s pdu) := by
  have hverified := (Effect.refl l).log (o := .verified) rfl
  unfold handlePairingRandom
  split
  · exact smpFail_does i l (.refl s) _
  dsimp only
  split
  · exact smpFail_does i l (.refl s) _
  · exact ⟨_, _, _, (hverified.setSmp _).send _ _, .verify rfl hsc⟩

theorem handleLescPublicKey_does : Does l s (handleLescPublicKey T i l s pdu) := by
  unfold handleLescPublicKey
  generalize readBytes 64 (wirePub (readBytes 64 (pdu.drop 1))) = pub
  split
  · exact smpFail_does i l (.refl s) _
  have hstored : s.Same { s with peerPub := pub } := by constructor <;> rfl
  dsimp only
  split
  · exact smpFail_does i l hstored _
  split
  · exact smpFail_does i l hstored _
  split
  · refine smpFail_does i l ?_ _
    constructor <;> rfl
  · exact ⟨_, _, _, (((Effect.refl l).setSmp _).send _ _).send _ _,
      .advance (.inr rfl) (by constructor <;> rfl)⟩

theorem lescTryFinish_does (hst : s.state = .lescW4Dhkchk) : Does l s (lescTryFinish T i l s) := by
  unfold lescTryFinish
  split
  · exact .keep rfl (.refl s)
  rename_i hready
  have huser : s.userOk = true := by
    cases hu : s.userOk
    · simp [hu] at hready
    · rfl
  dsimp only
  split
  · refine smpFail_does i l ?_ _
    constructor <;> rfl
  generalize (0x0d :: (T.f6 _ _ _ _ _ _ _).reverse.toList : List Byte) = pdu
  have hsent := (Effect.refl l).send (i.alloc 0) pdu
  have hstaged : Effect l { smpSend (i.alloc 0) l pdu with pendingSecLevel := s.method.level } []
      l.smp s.method.level := ⟨hsent.sec, hsent.out, hsent.smp, rfl⟩
  refine ⟨_, _, _, (hstaged.log rfl).setSmp _, ?_⟩
  exact .finish _ hst huser rfl rfl rfl rfl rfl

theorem handleLescRandom_does : Does l s (handleLescRandom T i l s pdu) := by
  unfold handleLescRandom
  split
  · exact smpFail_does i l (.refl s) _
  dsimp only
  have hsent := (Effect.refl l).send (i.alloc 0) (0x04 :: s.nb.reverse.toList)
  split
  · exact ⟨_, _, _, (hsent.log rfl).setSmp _, .compare _ rfl rfl rfl rfl⟩
  · rename_i hm
    exact ⟨_, _, _, hsent.setSmp _, .justWorks rfl hm rfl rfl⟩

theorem handleLescDhkeyCheck_does : Does l s (handleLescDhkeyCheck T i l s pdu) := by
  unfold handleLescDhkeyCheck
  split
  · exact smpFail_does i l (.refl s) _
  rename_i hst
  have hst : s.state = .lescW4Dhkchk := Decidable.byContradiction fun hne => hst (.inl hne)
  obtain ⟨ms, s', p', heff, hmove⟩ := lescTryFinish_does T i l
    { s with ea := (readBytes 16 (pdu.drop 1)).reverse, eaReceived := true } hst
  refine ⟨ms, s', p', heff, hmove.of_same ?_ ?_⟩
  · rfl
  · constructor <;> rfl

theorem smpPersistBond_effect : ∃ b : Bond, b.ltk = s.bond.ltk ∧
    Effect l (smpPersistBond l s) [.bondAdd b] (some { s with bond := b, state := .encrypted })
      l.pendingSecLevel := by
  unfold smpPersistBond
  generalize hb : (if s.gotIdAddr = true then s.bond else { s.bond with
    peerAddr := l.peerAddr, peerAddrType := l.peerAddrType }) = b
  have hltk : b.ltk = s.bond.ltk := by
    rw [← hb]
    split <;> rfl
  have hadd : Effect l { l with bonds := bleBondAdd l.bonds b } [] l.smp l.pendingSecLevel :=
    ⟨rfl, (List.append_nil _).symm, rfl, rfl⟩
  exact ⟨b, hltk, (hadd.log rfl).setSmp _⟩

/-- A key of the central is stored when keys are awaited, and with the last one the bond. -/
theorem storeKey_does {short : Prop} [Decidable short] {s : Smp} (hu : u.state = s.state)
    (h : s.Same u) :
    Does l s (if s.state ≠ .w4Keys ∨ short then l.setSmp s else smpKeysMaybeDone l u) := by
  split
  · exact .keep rfl (.refl s)
  rename_i hst
  have hst : s.state = .w4Keys := Decidable.byContradiction fun hne => hst (.inl hne)
  unfold smpKeysMaybeDone
  split
  · exact .keep hu h
  · obtain ⟨b, hb, heff⟩ := smpPersistBond_effect l u
    exact ⟨_, _, _, heff, .persist b hst (hb.trans h.ltk) rfl h.sc h.respKd⟩

/-- Every PDU is a move. -/
theorem handlePdu_does : Does l s (handlePdu T i l s pdu) := by
  have hkeep : Does l s (l.setSmp s) := .keep rfl (.refl s)
  unfold handlePdu
  split
  · exact handlePairingRequest_does i l s pdu
  · exact handleLescPublicKey_does T i l s pdu
  · exact handlePairingConfirm_does T i l s pdu
  · split
    · exact handleLescRandom_does T i l s pdu
    · rename_i hsc
      exact handlePairingRandom_does T i l s pdu (Bool.eq_false_iff.mpr hsc)
  · exact handleLescDhkeyCheck_does T i l s pdu
  · exact storeKey_does l rfl (by constructor <;> rfl)
  · exact storeKey_does l rfl (by constructor <;> rfl)
  · exact hkeep
  · exact hkeep
  · exact hkeep
  · exact ⟨_, _, _, ((Effect.refl l).log rfl).setSmp _, .fail rfl (by constructor <;> rfl)⟩
  · exact smpFail_does i l (.refl s) _

end

section

variable (T : Toolbox)

/-! ## Legacy pairing that succeeds -/

/-- A PDU with one value of 16 bytes, in a pairing. -/
theorem smpInput_eq (i : In) (op : Byte) (v : Bytes 16)
    (henc : l.canEncrypt = true) (hs : l.smp = some s) :
    smpInput T i l (op :: v.toList) = handlePdu T i l s (op :: v.toList) := by
  simp [smpInput, henc, hs]

theorem handlePairingConfirm_eq (i : In) (l : L2cap) (v : Bytes 16)
    (hst : s.state = .w4Confirm) : handlePairingConfirm T i l s (0x03 :: v.toList) =
      smpSend (i.alloc 0) (l.setSmp { s with mconfirm := v, state := .w4Random })
        (0x03 :: (confirmValue T l s s.srand).toList) := by
  have hv : readBytes 16 v.toList = v := by simpa using readBytes_append v []
  simp [handlePairingConfirm, hst, hv, confirmValue]

theorem handlePairingRandom_eq (i : In) (l : L2cap) (r : Bytes 16)
    (hst : s.state = .w4Random) (hc : confirmValue T l s r = s.mconfirm) :
    handlePairingRandom T i l s (0x04 :: r.toList) =
      smpSend (i.alloc 0) ((l.log .verified).setSmp { s with
        stk := smpS1 T (zeroBytes 16) s.srand r
        bond := { s.bond with level := .encrypted }
        state := .w4Ltk }) (0x04 :: s.srand.toList) := by
  have hr : readBytes 16 r.toList = r := by simpa using readBytes_append r []
  simp [handlePairingRandom, hst, hr, hc]

/-! ## Events -/

/-- The pairing state a PDU is handled in. -/
def L2cap.Pairs (l : L2cap) (s : Smp) : Prop := l.smp = some s ∨ l.smp = none ∧ s = zeroSmp

/-- The start of the key distribution phase. -/
structure KeyPhase (i : In) (s u : Smp) (sent : List Obs) : Prop where
  state : u.state = .w4Keys
  sc : u.sc = s.sc
  respKd : u.respKd = s.respKd
  none : s.respKd &&& distEnc = 0 → sent = [] ∧ u.bond.ltk = s.bond.ltk
  fresh : s.respKd &&& distEnc ≠ 0 →
    sent = if i.alloc 0 then [.distributed u.bond.ltk] else []

/-- What an event does to the link. -/
inductive Outcome (l l' : L2cap) : Event → Prop
  | quiet {e : Event} (h : Effect l l' [] l.smp l.pendingSecLevel) : Outcome l l' e
  | pdu {i : In} {data : List Byte} {s : Smp} (hs : l.Pairs s) (h : Does l s l') :
      Outcome l l' (.pdu i data)
  | refused {i : In} {data : List Byte} (h : Effect l l' [.failed] none l.pendingSecLevel) :
      Outcome l l' (.pdu i data)
  | confirm {i : In} {s s' : Smp} {ms : List Obs} {p' : SecLevel} (hs : l.smp = some s)
      (hst : s.state = .lescW4Dhkchk) (h : Effect l l' (.confirmed :: ms) (some s') p')
      (hm : Move { s with userOk := true } l.pendingSecLevel ms s' p') : Outcome l l' (.confirm i)
  | finished {random : BitVec 64} {ediv : BitVec 16} {s : Smp}
      (hf : l.finished random ediv = some s) (hs : l.smp = some s) (hst : s.state = .w4Ltk)
      (h : Effect l l' [.reply s.keySource s.key] (some { s with state := .w4Enc })
        l.pendingSecLevel) : Outcome l l' (.ltkRequest random ediv)
  | bond {random : BitVec 64} {ediv : BitVec 16} (b : Bond)
      (h : Effect l l' [.reply (.bond b) b.ltk] l.smp b.level) :
      Outcome l l' (.ltkRequest random ediv)
  | reject {random : BitVec 64} {ediv : BitVec 16}
      (h : Effect l l' [.reject] l.smp l.pendingSecLevel) : Outcome l l' (.ltkRequest random ediv)
  | encryption {enabled : Bool} (h : l' = smpEncryptionChanged l enabled) :
      Outcome l l' (.encryptionChange enabled)
  | unbonded {i : In} {s : Smp} (hs : l.smp = some s)
      (h : Effect l l' [] (some { s with state := .encrypted }) l.pendingSecLevel) :
      Outcome l l' (.smpTask i)
  | keys {i : In} {s u s' : Smp} {sent ms : List Obs} (hsignal : l.smpSignal = true)
      (hs : l.smp = some s) (hb : s.bonding = true) (hphase : KeyPhase i s u sent)
      (h : Effect l l' (sent ++ ms) (some s') l.pendingSecLevel)
      (hm : Move u l.pendingSecLevel ms s' l.pendingSecLevel) : Outcome l l' (.smpTask i)

/-- A PDU is ignored, is a move, or is refused before there is a pairing state. -/
theorem smpInput_outcome (i : In) (l : L2cap) (data : List Byte) :
    Outcome l (smpInput T i l data) (.pdu i data) := by
  unfold smpInput
  split
  · exact .quiet (.refl l)
  split
  · have hfail := smpFail_effect i l errPairingNotsupp
    cases hs : l.smp with
    | none =>
      rw [hs] at hfail
      exact .refused hfail
    | some s =>
      rw [hs] at hfail
      exact .pdu (.inl hs) ⟨_, _, _, hfail, .fail rfl (by constructor <;> rfl)⟩
  split
  · rename_i s hs
    exact .pdu (.inl hs) (handlePdu_does T i l s data)
  rename_i hs
  split
  · exact .pdu (.inr ⟨hs, rfl⟩) (handlePdu_does T i l zeroSmp data)
  · have hfail := smpFail_effect i l errUnspecified
    rw [hs] at hfail
    exact .refused hfail

/-- The user's confirmation is taken once for each value shown. -/
theorem smpNumericConfirm_outcome (i : In) (l : L2cap) :
    Outcome l (smpNumericConfirm T i l).1 (.confirm i) := by
  unfold smpNumericConfirm
  split
  · exact .quiet (.refl l)
  rename_i s hs
  split
  · exact .quiet (.refl l)
  rename_i hready
  have hst : s.state = .lescW4Dhkchk := Decidable.byContradiction fun hne => hready (.inl hne)
  have hlog := (Effect.refl l).log (o := .confirmed) rfl
  obtain ⟨ms, s', p', heff, hmove⟩ :=
    lescTryFinish_does T i (l.log .confirmed) { s with userOk := true } hst
  refine .confirm hs hst ⟨heff.sec, ?_, heff.smp, heff.pending⟩ hmove
  rw [heff.out, hlog.out]
  simp

theorem smpLtkRequest_outcome (l : L2cap) (random : BitVec 64) (ediv : BitVec 16) :
    Outcome l (smpLtkRequest T l random ediv) (.ltkRequest random ediv) := by
  unfold smpLtkRequest
  split
  · rename_i s hf
    obtain ⟨hs, hst⟩ := Option.filter_eq_some_iff.mp hf
    simp only [Bool.and_eq_true, beq_iff_eq] at hst
    exact .finished hf hs hst.1.1 (((Effect.refl l).setSmp _).log rfl)
  split
  · rename_i b hb
    have hstaged : Effect l { l with pendingSecLevel := b.level } [] l.smp b.level :=
      ⟨rfl, (List.append_nil _).symm, rfl, rfl⟩
    exact .bond b (hstaged.log rfl)
  · exact .reject ((Effect.refl l).log rfl)

end

theorem smpRequestSecurity_effect (i : In) (l : L2cap) :
    Effect l (smpRequestSecurity i l) [] l.smp l.pendingSecLevel := by
  unfold smpRequestSecurity
  split
  · exact .refl l
  · exact (Effect.refl l).send _ _

theorem distributeLtk_effect (i : In) (l : L2cap) (s : Smp) :
    Effect l (distributeLtk i l s).1 (if i.alloc 0 then [.distributed i.rand16] else []) l.smp
      l.pendingSecLevel := by
  unfold distributeLtk
  cases hal : i.alloc 0
  · exact (Effect.refl l).send _ _
  · exact (((Effect.refl l).send _ _).log rfl).send _ _

/-- The deferred part of an encryption change: it starts the key distribution if the last
Pairing Request asked for bonding, and stores the bond if no key of the central is awaited. -/
theorem smpEncrypted_outcome (i : In) {l : L2cap} (hsignal : l.smpSignal = true) :
    Outcome l (smpEncrypted i { l with smpSignal := false }) (.smpTask i) := by
  have hclear : Effect l { l with smpSignal := false } [] l.smp l.pendingSecLevel :=
    { Effect.refl l with }
  unfold smpEncrypted
  split
  · exact .quiet hclear
  rename_i s hs
  split
  · exact .unbonded hs (hclear.setSmp _)
  rename_i hb
  -- the state after the distribution, in which the bond is stored or keys are awaited
  have hphase : ∃ w u sent, (if s.respKd &&& distEnc != 0 then
        distributeLtk i { l with smpSignal := false } { s with state := .w4Keys }
        else ({ l with smpSignal := false }, { s with state := .w4Keys })) = (w, u) ∧
      KeyPhase i s u sent ∧ Effect l w sent l.smp l.pendingSecLevel := by
    by_cases hkd : s.respKd &&& distEnc = 0
    · exact ⟨_, _, [], if_neg (by simp [hkd]), ⟨rfl, rfl, rfl, fun _ => ⟨rfl, rfl⟩,
        fun hne => absurd hkd hne⟩, hclear⟩
    · exact ⟨_, _, _, if_pos (bne_iff_ne.mpr hkd), ⟨rfl, rfl, rfl, fun h => absurd h hkd, fun _ => rfl⟩,
        { distributeLtk_effect i { l with smpSignal := false } _ with }⟩
  obtain ⟨w, u, sent, heq, hkeys, heff⟩ := hphase
  dsimp only
  rw [heq]
  have hb : s.bonding = true := by simpa using hb
  split
  · obtain ⟨b, hltk, hp⟩ := smpPersistBond_effect w u
    refine .keys hsignal hs hb hkeys ⟨hp.sec.trans heff.sec, ?_, hp.smp, hp.pending.trans heff.pending⟩
      (.persist b hkeys.state hltk rfl rfl rfl)
    rw [hp.out, heff.out, List.append_assoc]
  · exact .keys hsignal hs hb hkeys (by simpa using heff.setSmp u) (.keep rfl (.refl u))

/-- Every event starts the log anew. -/
theorem L2cap.step_outcome (T : Toolbox) (l : L2cap) (e : Event) :
    Outcome { l with out := [] } (l.step T e) e := by
  cases e with
  | pdu i data => exact smpInput_outcome T i _ data
  | confirm i => exact smpNumericConfirm_outcome T i _
  | ltkRequest random ediv => exact smpLtkRequest_outcome T _ random ediv
  | encryptionChange enabled => exact .encryption rfl
  | smpTask i =>
    unfold step
    dsimp only
    split
    · exact smpEncrypted_outcome i ‹_›
    · exact .quiet (.refl _)
  | requestSecurity i => exact .quiet (smpRequestSecurity_effect i _)
  | bondsClear => exact .quiet ⟨rfl, rfl, rfl, rfl⟩

end Mios.Ble
