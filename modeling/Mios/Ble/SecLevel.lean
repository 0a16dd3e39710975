import Mios.Lib.Run
import Mios.Ble.Pairing

/-! The security level of a link against the key it is encrypted with. A monitor reads the
log of the security manager and keeps track of the key: where it comes from, and for a
derived one whether the user had confirmed the value of its pairing. -/

namespace Mios.Ble

open Lib Option

/-! ## Keys -/

/-- A key that was handed to the controller: a short-term key, the LTK of a Secure
Connections pairing, whose current numeric value the user confirmed or not, or the LTK of a
stored bond. -/
inductive Key where
  | stk
  | lesc (confirmed : Bool)
  | bond (level : SecLevel)
  deriving DecidableEq, Repr

def Key.level : Key → SecLevel
  | .stk => .encrypted
  | .lesc confirmed => if confirmed then .authSc else .encrypted
  | .bond level => level

/-- `handed` is the key that waits for its encryption change, `inUse` the one the link is
encrypted with. -/
structure Monitor where
  confirmed : Bool
  derived : Bool
  handed : Option Key
  inUse : Option Key
  deriving DecidableEq, Repr

namespace Monitor

def keyOf (m : Monitor) : KeySource → Key
  | .stk => .stk
  | .lesc => .lesc m.derived
  | .bond b => .bond b.level

def see (m : Monitor) : Obs → Monitor
  | .started | .shown _ => { m with confirmed := false }
  | .confirmed => { m with confirmed := true }
  | .derived _ => { m with derived := m.confirmed }
  | .reply source _ => { m with handed := some (m.keyOf source) }
  | .reject => { m with handed := none }
  | .encryption true => { m with inUse := m.handed, handed := none }
  | .encryption false => { m with inUse := none, handed := none }
  | .send _ | .failed | .verified | .distributed _ | .bondAdd _ => m

def watch (m : Monitor) (l : List Obs) : Monitor := l.foldl see m

theorem watch_marks (m : Monitor) (l : List Obs) : m.watch l = m.watch (marks l) :=
  foldl_marks (fun _ _ => rfl) m l

end Monitor

/-! ## Connections -/

structure Conn where
  link : L2cap
  mon : Monitor

namespace Conn

def step (T : Toolbox) (c : Conn) (e : Event) : Conn :=
  ⟨c.link.step T e, c.mon.watch (c.link.step T e).out⟩

/-- The controller turns encryption on with a key it was given. -/
def Possible (c : Conn) : Event → Prop
  | .encryptionChange true => c.mon.handed ≠ none
  | _ => True

def Steps (T : Toolbox) (c : Conn) (e : Event) (c' : Conn) : Prop :=
  c.Possible e ∧ c.step T e = c'

def start (l : L2cap) : Conn := ⟨l, ⟨false, false, none, none⟩⟩

/-- The level a finished pairing stands for. -/
def keyLevel (s : Smp) : SecLevel := if s.sc then s.bond.level else .encrypted

/-- A key waits for its encryption change, and the pairing in progress would not stage a
higher level than it has. -/
def quiet (c : Conn) : Bool :=
  match c.mon.handed, c.link.smp with
  | some k, some s => s.state != .lescW4Dhkchk || decide (s.method.level ≤ k.level)
  | _, _ => true

/-- The level that is staged when the key of a pairing is handed out is at most that of the
pairing, and no pairing stages a higher level than that of a key that waits. -/
def tidy (c : Conn) : Event → Bool
  | .ltkRequest random ediv =>
      match c.link.finished random ediv with
      | some s => decide (c.link.pendingSecLevel ≤ keyLevel s)
      | none => true
  | .pdu _ _ | .confirm _ => c.quiet
  | _ => true

/-- The security level does not promise more than the key holds: at most its level, and
AUTH_SC only with a confirmed Secure Connections key or a bond of that level. -/
def Honest (c : Conn) : Prop :=
  match c.mon.inUse with
  | none => c.link.secLevel = .none
  | some k => c.link.secLevel ≤ k.level ∧
      (c.link.secLevel = .authSc → k = .lesc true ∨ k = .bond .authSc)

variable {c : Conn} {m : Monitor} {p' : SecLevel} {s : Smp}

theorem Honest.le {k : Key} (h : c.Honest) (hk : c.mon.inUse = some k) :
    c.link.secLevel ≤ k.level := by
  simp only [Honest, hk] at h
  exact h.1

/-! ## The invariant -/

/-- What the monitor knows about the pairing state. -/
structure Knows (m : Monitor) (s : Smp) : Prop where
  ltk : s.state = .w4Ltk → s.sc = true → s.bond.level ≤ (Key.lesc m.derived).level
  user : s.state = .lescW4Dhkchk → s.method = .numericComparison → s.userOk = true →
    m.confirmed = true

structure Inv (c : Conn) : Prop where
  handed : ∀ k, c.mon.handed = some k → c.link.pendingSecLevel ≤ k.level
  inUse : ∀ k, c.mon.inUse = some k → c.link.secLevel ≤ k.level
  off : c.mon.inUse = none → c.link.secLevel = .none
  knows : ∀ s, c.link.smp = some s → Knows c.mon s

theorem Knows.of_state (hl : s.state ≠ .w4Ltk) (hd : s.state ≠ .lescW4Dhkchk) : Knows m s :=
  ⟨fun h => absurd h hl, fun h => absurd h hd⟩

theorem level_le (l : SecLevel) : l ≤ l := Nat.le_refl l.rank

theorem encrypted_le_lesc (confirmed : Bool) : SecLevel.encrypted ≤ (Key.lesc confirmed).level := by
  cases confirmed <;> decide

/-- A move hands out no key; it may stage the level of the pairing it finishes. -/
structure Kept (m m' : Monitor) (s : Smp) (p p' : SecLevel) : Prop where
  handed : m'.handed = m.handed
  inUse : m'.inUse = m.inUse
  pending : p' = p ∨ s.state = .lescW4Dhkchk ∧ p' = s.method.level

theorem move_knows {s' : Smp} {p : SecLevel} {ms : List Obs} (h : Knows m s)
    (hm : Move s p ms s' p') : Knows (m.watch ms) s' ∧ Kept m (m.watch ms) s p p' := by
  cases hm with
  | keep hst hsame =>
    refine ⟨⟨fun hl hsc => ?_, fun hd hn hu => ?_⟩, rfl, rfl, .inl rfl⟩
    · rw [hsame.level]
      exact h.ltk (hst ▸ hl) (hsame.sc ▸ hsc)
    · exact h.user (hst ▸ hd) (hsame.method ▸ hn) (hsame.userOk ▸ hu)
  | fail hst _ => exact ⟨.of_state (by simp [hst]) (by simp [hst]), rfl, rfl, .inl rfl⟩
  | start hst _ | advance hst _ =>
    exact ⟨.of_state (by rcases hst with h | h <;> simp [h]) (by rcases hst with h | h <;> simp [h]),
      rfl, rfl, .inl rfl⟩
  | verify hst hsc =>
    exact ⟨⟨fun _ hsc' => by simp [hsc] at hsc', by simp [hst]⟩, rfl, rfl, .inl rfl⟩
  | compare v hst hu =>
    exact ⟨⟨by simp [hst], fun _ _ hu' => by simp [hu] at hu'⟩, rfl, rfl, .inl rfl⟩
  | justWorks hst hmethod =>
    exact ⟨⟨by simp [hst], fun _ hn => by simp [hmethod] at hn⟩, rfl, rfl, .inl rfl⟩
  | finish ltk hst huser hst' hltk hlevel =>
    refine ⟨⟨fun _ _ => ?_, by simp [hst']⟩, rfl, rfl, .inr ⟨hst, rfl⟩⟩
    -- with Numeric Comparison the user has confirmed the value of this pairing
    rw [hlevel]
    cases hmethod : s.method with
    | justWorks => exact encrypted_le_lesc _
    | numericComparison =>
      have hconf : m.confirmed = true := h.user hst hmethod huser
      show SecLevel.authSc ≤ (Key.lesc m.confirmed).level
      rw [hconf]
      exact level_le _
  | persist b hst hb hst' =>
    exact ⟨.of_state (by simp [hst']) (by simp [hst']), rfl, rfl, .inl rfl⟩

/-- After a move the key that waits still has the level that is staged. -/
theorem handed_le {m' : Monitor} {p : SecLevel} (hk : Kept m m' s p p')
    (hp : ∀ k, m.handed = some k → p ≤ k.level)
    (hq : ∀ k, m.handed = some k → s.state = .lescW4Dhkchk → s.method.level ≤ k.level) :
    ∀ k, m'.handed = some k → p' ≤ k.level := by
  intro k hkey
  rw [hk.handed] at hkey
  rcases hk.pending with rfl | ⟨hst, rfl⟩
  · exact hp k hkey
  · exact hq k hkey hst

theorem quiet_read (h : c.quiet = true) {k : Key}
    (hk : c.mon.handed = some k) (hs : c.link.smp = some s) (hst : s.state = .lescW4Dhkchk) :
    s.method.level ≤ k.level := by
  simpa [quiet, hk, hs, hst] using h

theorem zeroSmp_knows (m : Monitor) : Knows m zeroSmp := .of_state (by decide) (by decide)

/-- What a handler does to the link, for the invariant. -/
theorem inv_of_effect {l' : L2cap} {s' : Option Smp} {ms : List Obs}
    (hi : c.Inv) (he : Effect { c.link with out := [] } l' ms s' p')
    (hhanded : ∀ k, (c.mon.watch ms).handed = some k → p' ≤ k.level)
    (hinUse : (c.mon.watch ms).inUse = c.mon.inUse)
    (hknows : ∀ s, s' = some s → Knows (c.mon.watch ms) s) : Inv ⟨l', c.mon.watch l'.out⟩ := by
  have hout : marks l'.out = ms := he.out
  have hmon : c.mon.watch l'.out = c.mon.watch ms := by rw [Monitor.watch_marks, hout]
  rw [hmon]
  refine ⟨?_, ?_, ?_, ?_⟩
  · rw [he.pending]
    exact hhanded
  · rw [hinUse, he.sec]
    exact hi.inUse
  · rw [hinUse, he.sec]
    exact hi.off
  · rw [he.smp]
    exact hknows

theorem inv_of_move {l' : L2cap} {s' : Smp} {ms ms' : List Obs} (hi : c.Inv)
    (he : Effect { c.link with out := [] } l' ms' (some s') p') (hs : Knows m s)
    (hm : Move s c.link.pendingSecLevel ms s' p') (hwatch : c.mon.watch ms' = m.watch ms)
    (hhanded : m.handed = c.mon.handed) (hinUse : m.inUse = c.mon.inUse)
    (hq : ∀ k, c.mon.handed = some k → s.state = .lescW4Dhkchk → s.method.level ≤ k.level) : Inv ⟨l', c.mon.watch l'.out⟩ := by
  obtain ⟨hknows, hkept⟩ := move_knows hs hm
  have hle := handed_le hkept (hhanded ▸ hi.handed) (hhanded ▸ hq)
  rw [← hwatch] at hle hknows
  refine inv_of_effect hi he hle ?_ ?_
  · rw [hwatch, hkept.inUse, hinUse]
  · rintro _ ⟨⟩
    exact hknows

theorem keyLevel_le (hs : Knows m s) (hst : s.state = .w4Ltk) :
    keyLevel s ≤ (m.keyOf s.keySource).level := by
  cases hsc : s.sc with
  | true => simpa [keyLevel, Smp.keySource, hsc, Monitor.keyOf] using hs.ltk hst hsc
  | false => simpa [keyLevel, Smp.keySource, hsc, Monitor.keyOf, Key.level] using level_le .encrypted

theorem encryptionChange_inv (T : Toolbox) (enabled : Bool) (hi : c.Inv)
    (hp : c.Possible (.encryptionChange enabled)) : (c.step T (.encryptionChange enabled)).Inv := by
  cases enabled with
  | true =>
    -- the staged level goes with the key that was handed out
    obtain ⟨k, hk⟩ := ne_none_iff_exists'.mp hp
    refine ⟨(fun _ hk => nomatch hk), hi.handed, ?_, fun s hs => ?_⟩
    · intro hoff
      have hnone : c.mon.handed = none := hoff
      rw [hk] at hnone
      cases hnone
    · exact ⟨(hi.knows s hs).ltk, (hi.knows s hs).user⟩
  | false =>
    refine ⟨(fun _ hk => nomatch hk), (fun _ hk => nomatch hk), fun _ => rfl, fun s hs => ?_⟩
    have hidle : c.link.smp.map (fun s : Smp => { s with state := .idle }) = some s := hs
    obtain ⟨s, -, rfl⟩ := map_eq_some_iff.mp hidle
    exact .of_state nofun nofun

theorem step_inv (T : Toolbox) {c' : Conn} {e : Event} (hi : c.Inv) (ht : c.tidy e = true)
    (hs : c.Steps T e c') : c'.Inv := by
  obtain ⟨hp, rfl⟩ := hs
  have hout := c.link.step_outcome T e
  unfold step
  generalize c.link.step T e = l' at hout ⊢
  cases hout with
  | quiet h => exact inv_of_effect hi h hi.handed rfl hi.knows
  | pdu hpairs hdoes =>
    obtain ⟨ms, s', p', heff, hmove⟩ := hdoes
    rcases hpairs with hs | ⟨-, rfl⟩
    · exact inv_of_move hi heff (hi.knows _ hs) hmove rfl rfl rfl fun k hk hst =>
        quiet_read ht hk hs hst
    · exact inv_of_move hi heff (zeroSmp_knows _) hmove rfl rfl rfl fun _ _ hst =>
        absurd hst (by decide)
  | refused h =>
    exact inv_of_effect hi h hi.handed rfl fun _ h => absurd h (some_ne_none _).symm
  | @confirm i s s' ms p' hs hst heff hmove =>
    have hconf : Knows (c.mon.see .confirmed) { s with userOk := true } :=
      ⟨fun hl => by simp [hst] at hl, fun _ _ _ => rfl⟩
    exact inv_of_move hi heff hconf hmove rfl rfl rfl fun k hk _ => quiet_read (s := s) ht hk hs hst
  | @finished random ediv s hf hs hst heff =>
    have hf : c.link.finished random ediv = some s := hf
    have hpend : c.link.pendingSecLevel ≤ keyLevel s := by simpa [tidy, hf] using ht
    refine inv_of_effect hi heff ?_ rfl ?_
    · rintro _ ⟨⟩
      exact Nat.le_trans hpend (keyLevel_le (hi.knows s hs) hst)
    · rintro _ ⟨⟩
      exact .of_state nofun nofun
  | bond b heff =>
    refine inv_of_effect hi heff ?_ rfl fun s hs => { hi.knows s hs with }
    rintro _ ⟨⟩
    exact level_le _
  | reject heff =>
    exact inv_of_effect hi heff (fun _ hk => nomatch hk) rfl fun s hs => { hi.knows s hs with }
  | encryption h =>
    rw [h]
    exact encryptionChange_inv T _ hi hp
  | unbonded _ heff =>
    refine inv_of_effect hi heff hi.handed rfl ?_
    rintro _ ⟨⟩
    exact .of_state nofun nofun
  | @keys i s u s' sent ms _ _ _ hphase heff hmove =>
    have hsent : c.mon.watch sent = c.mon := by
      by_cases hkd : s.respKd &&& distEnc = 0
      · rw [(hphase.none hkd).1]
        rfl
      · rw [hphase.fresh hkd]
        split <;> rfl
    have hwatch : c.mon.watch (sent ++ ms) = (c.mon.watch sent).watch ms := List.foldl_append ..
    rw [hsent] at hwatch
    exact inv_of_move hi heff (.of_state (by simp [hphase.state]) (by simp [hphase.state])) hmove
      hwatch rfl rfl (by simp [hphase.state])

theorem start_inv (l : L2cap) (hsec : l.secLevel = .none) (hsmp : l.smp = none) : (start l).Inv :=
  ⟨nofun, nofun, fun _ => hsec, fun s hs => by rw [show (start l).link.smp = none from hsmp] at hs; cases hs⟩

theorem Inv.honest (hi : c.Inv) : c.Honest := by
  unfold Honest
  split
  · rename_i hnone
    exact hi.off hnone
  rename_i k hk
  have hle := hi.inUse k hk
  refine ⟨hle, fun hsec => ?_⟩
  rw [hsec] at hle
  -- only these keys have the highest level
  cases k with
  | stk => exact absurd hle (by decide)
  | lesc confirmed => cases confirmed with
    | true => exact .inl rfl
    | false => exact absurd hle (by decide)
  | bond level => cases level with
    | authSc => exact .inr rfl
    | _ => exact absurd hle (by decide)

/-! ## The security level -/

/-- In every run of a connection whose events are all tidy the security level is honest in every
state reached. -/
theorem secLevel_honest (T : Toolbox) (ourAddr peerAddr : Bytes 6) (ourAddrType peerAddrType : Byte)
    (canEncrypt : Bool) (bonds : Bonds) (es : List Event) (c : Conn)
    (h : Run (Guarded (fun c e => c.tidy e = true) (Steps T))
      (start (l2capConnect ourAddr peerAddr ourAddrType peerAddrType canEncrypt bonds)) es c) :
    c.Honest := by
  refine (h.invariant (start_inv _ rfl rfl) ?_).honest
  rintro u e v hi ⟨ht, hs⟩
  exact step_inv T hi ht hs

/-- A bonded central: the bond is of the highest level, the address all zeros. -/
def scBond : Bond := { zeroBond with valid := true, sc := true, level := .authSc }

def bonded : Conn :=
  start (l2capConnect (zeroBytes 6) (zeroBytes 6) 0 0 true #v[scBond, zeroBond, zeroBond, zeroBond])

theorem bonded_reconnects : ∃ es c,
    Run (Guarded (fun c e => c.tidy e = true) (Steps zeroToolbox)) bonded es c ∧
      c.link.secLevel = .authSc ∧ c.Honest := by
  have hkey : (bonded.step zeroToolbox (.ltkRequest 0 0)).Possible (.encryptionChange true) :=
    some_ne_none _
  have hrun : Run (Guarded (fun c e => c.tidy e = true) (Steps zeroToolbox)) bonded
      [.ltkRequest 0 0, .encryptionChange true]
      ((bonded.step zeroToolbox (.ltkRequest 0 0)).step zeroToolbox (.encryptionChange true)) :=
    ((Run.nil bonded).snoc ⟨rfl, trivial, rfl⟩).snoc ⟨rfl, hkey, rfl⟩
  exact ⟨_, _, hrun, rfl, secLevel_honest zeroToolbox _ _ _ _ _ _ _ _ hrun⟩

/-- A legacy Pairing Request, without bonding. -/
def legacyReq : List Byte := [0x01, 0x03, 0, 0, 16, 0, 0]

/-- The link of the bonded central, encrypted with the bond, after that request. -/
def repairing (T : Toolbox) : Conn :=
  ((bonded.step T (.ltkRequest 0 0)).step T (.encryptionChange true)).step T (.pdu zeroIn legacyReq)

/-- The confirm value of a central whose random number is zero. -/
def centralConfirm (T : Toolbox) : Bytes 16 :=
  smpC1 T (zeroBytes 16) (zeroBytes 16) (readBytes 7 legacyReq) (negotiate zeroSmp legacyReq).pres
    0 (zeroBytes 6) 0 (zeroBytes 6)

/-- The pairing after the request, and after the confirm value. -/
def requested : Smp :=
  { negotiate zeroSmp legacyReq with srand := zeroBytes 16, state := .w4Confirm }

def confirmed (T : Toolbox) : Smp :=
  { requested with mconfirm := centralConfirm T, state := .w4Random }

def repaired (T : Toolbox) : Conn :=
  ((repairing T).step T (.pdu zeroIn (0x03 :: (centralConfirm T).toList))).step T
    (.pdu zeroIn (0x04 :: (zeroBytes 16).toList))

/-- The legacy pairing succeeds, and leaves the level of the bond staged. -/
theorem repaired_finished (T : Toolbox) : ∃ s, (repaired T).link.smp = some s ∧
    s.state = .w4Ltk ∧ s.sc = false ∧ (repaired T).link.pendingSecLevel = .authSc := by
  have hconfirm : ((repairing T).step T (.pdu zeroIn (0x03 :: (centralConfirm T).toList))).link =
      _ := (smpInput_eq T zeroIn 0x03 (centralConfirm T) rfl rfl).trans
    (handlePairingConfirm_eq T zeroIn { (repairing T).link with out := [] } (centralConfirm T) rfl)
  have hrandom := handlePairingRandom_eq T zeroIn
    { (repairing T).link with smp := some (confirmed T), out := [] } (s := confirmed T)
    (zeroBytes 16) rfl rfl
  have hlink : (repaired T).link = smpInput T zeroIn
      { ((repairing T).step T (.pdu zeroIn (0x03 :: (centralConfirm T).toList))).link with
        out := [] } (0x04 :: (zeroBytes 16).toList) := rfl
  rw [hlink, hconfirm, smpInput_eq T zeroIn 0x04 _ rfl rfl]
  exact ⟨_, (congrArg L2cap.smp hrandom :), rfl, rfl, (congrArg L2cap.pendingSecLevel hrandom :)⟩

/-- Whatever the toolbox computes, a bonded central that pairs again, by the legacy protocol,
has the level of its bond with the short-term key in use. -/
def ShortTermKeyAtBondLevel : Prop :=
  ∀ T : Toolbox, ∃ es c, Run (Steps T) bonded es c ∧ c.mon.inUse = some .stk ∧
    c.link.secLevel = .authSc ∧ ¬ c.Honest

theorem legacy_pairing_keeps_bond_level : ShortTermKeyAtBondLevel := by
  intro T
  obtain ⟨s, hs, hst, hsc, hpend⟩ := repaired_finished T
  have hbond : (bonded.step T (.ltkRequest 0 0)).Possible (.encryptionChange true) :=
    some_ne_none _
  have hpdu (c : Conn) (data : List Byte) :
      Run (Steps T) c [.pdu zeroIn data] (c.step T (.pdu zeroIn data)) := .single ⟨trivial, rfl⟩
  have hask (c : Conn) : Run (Steps T) c [.ltkRequest 0 0] (c.step T (.ltkRequest 0 0)) :=
    .single ⟨trivial, rfl⟩
  have hpaired : Run (Steps T) bonded _ (repaired T) :=
    (((hask bonded).snoc ⟨hbond, rfl⟩).trans (hpdu _ legacyReq)).trans
      ((hpdu _ (0x03 :: (centralConfirm T).toList)).trans (hpdu _ (0x04 :: (zeroBytes 16).toList)))
  -- the controller asks for the key of the finished pairing
  have hfin : ({ (repaired T).link with out := [] } : L2cap).finished 0 0 = some s := by
    simp [L2cap.finished, hs, hst]
  have hreply : smpLtkRequest T { (repaired T).link with out := [] } 0 0 =
      (({ (repaired T).link with out := [] } : L2cap).setSmp { s with state := .w4Enc }).log
        (.reply .stk s.stk) := by
    unfold smpLtkRequest
    rw [hfin]
    simp [Smp.keySource, Smp.key, hsc]
  have hlink : (repaired T).link.step T (.ltkRequest 0 0) = _ := hreply
  have hhanded : ((repaired T).step T (.ltkRequest 0 0)).mon.handed = some .stk := by
    simp only [step, hlink]
    rfl
  have hstaged : ((repaired T).step T (.ltkRequest 0 0)).link.pendingSecLevel = .authSc := by
    simp only [step, hlink]
    exact hpend
  have hkey : ((repaired T).step T (.ltkRequest 0 0)).Possible (.encryptionChange true) := by
    rw [Possible, hhanded]
    exact some_ne_none _
  refine ⟨_, _, (hpaired.trans (hask _)).snoc ⟨hkey, rfl⟩, hhanded, hstaged, fun hhonest => ?_⟩
  have hle := hhonest.le hhanded
  rw [show L2cap.secLevel _ = .authSc from hstaged] at hle
  exact absurd hle (by decide)

end Conn

end Mios.Ble
