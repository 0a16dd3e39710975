import Mios.Lib.Run
import Mios.Ble.Pairing

/-! Where the LTK of a stored bond comes from. A ledger follows the pairing of the moment in
the log of the security manager: whether it has completed, and which LTK it has derived or
sent to the central. -/

namespace Mios.Ble.Bonding

open Lib

/-! ## The ledger -/

/-- `key` is the LTK that the completed pairing has given to both sides. `sound` says that
every bond stored so far carried the LTK of a completed pairing. -/
structure Ledger where
  completed : Bool
  key : Option (Bytes 16)
  sound : Bool
  deriving DecidableEq

namespace Ledger

def see (g : Ledger) : Obs → Ledger
  | .started | .failed => { g with completed := false, key := none }
  | .verified => { g with completed := true, key := none }
  | .derived ltk => { g with completed := true, key := some ltk }
  | .distributed ltk => { g with key := if g.completed then some ltk else none }
  | .bondAdd b => { g with sound := g.sound && g.completed && g.key == some b.ltk }
  | .send _ | .shown _ | .confirmed | .reply _ _ | .reject | .encryption _ => g

def watch (g : Ledger) (l : List Obs) : Ledger := l.foldl see g

theorem watch_marks (g : Ledger) (l : List Obs) : g.watch l = g.watch (marks l) :=
  foldl_marks (fun _ _ => rfl) g l

theorem watch_append (g : Ledger) (l l' : List Obs) : g.watch (l ++ l') = (g.watch l).watch l' :=
  List.foldl_append ..

end Ledger

structure Conn where
  link : L2cap
  ledger : Ledger

namespace Conn

def step (T : Toolbox) (c : Conn) (e : Event) : Conn :=
  ⟨c.link.step T e, c.ledger.watch (c.link.step T e).out⟩

def Steps (T : Toolbox) (c : Conn) (e : Event) (c' : Conn) : Prop := c.step T e = c'

def start (l : L2cap) : Conn := ⟨l, ⟨false, none, true⟩⟩

/-- The pairing that the deferred part of an encryption change finds is the one the link has been
encrypted for, and there is an LTK to store: a derived one, or one that is to be distributed
and gets a buffer. -/
def due (c : Conn) : Event → Bool
  | .smpTask i =>
      match c.link.smp with
      | some s => !c.link.smpSignal || !s.bonding ||
          (s.state == .w4Enc && (s.sc || (s.respKd &&& distEnc != 0 && i.alloc 0)))
      | none => true
  | _ => true

/-! ## The invariant -/

/-- What the ledger knows about the pairing state. -/
structure Knows (g : Ledger) (s : Smp) : Prop where
  done : s.state = .w4Ltk ∨ s.state = .w4Enc →
    g.completed = true ∧ (s.sc = true → g.key = some s.bond.ltk)
  keys : s.state = .w4Keys → g.completed = true ∧ g.key = some s.bond.ltk
  kd : s.sc = true → s.respKd = 0

structure Inv (c : Conn) : Prop where
  sound : c.ledger.sound = true
  knows : ∀ s, c.link.smp = some s → Knows c.ledger s

variable {c : Conn} {g : Ledger} {s : Smp}

theorem Knows.of_state (hl : s.state ≠ .w4Ltk) (he : s.state ≠ .w4Enc)
    (hk : s.state ≠ .w4Keys) (hkd : s.sc = true → s.respKd = 0) : Knows g s :=
  ⟨fun h => h.elim (absurd · hl) (absurd · he), fun h => absurd h hk, hkd⟩

theorem move_knows {s' : Smp} {p p' : SecLevel} {ms : List Obs} (h : Knows g s)
    (hg : g.sound = true) (hm : Move s p ms s' p') :
    Knows (g.watch ms) s' ∧ (g.watch ms).sound = true := by
  cases hm with
  | keep hst hsame =>
    refine ⟨⟨?_, ?_, ?_⟩, hg⟩
    · rw [hst, hsame.sc, hsame.ltk]
      exact h.done
    · rw [hst, hsame.ltk]
      exact h.keys
    · rw [hsame.sc, hsame.respKd]
      exact h.kd
  | fail hst hsame =>
    refine ⟨.of_state (by simp [hst]) (by simp [hst]) (by simp [hst]) ?_, hg⟩
    rw [hsame.sc, hsame.respKd]
    exact h.kd
  | start hst hkd =>
    refine ⟨.of_state ?_ ?_ ?_ hkd, hg⟩ <;> rcases hst with hst | hst <;> simp [hst]
  | advance hst hsame =>
    have hkd : s'.sc = true → s'.respKd = 0 := by
      rw [hsame.sc, hsame.respKd]
      exact h.kd
    refine ⟨.of_state ?_ ?_ ?_ hkd, hg⟩ <;> rcases hst with hst | hst <;> simp [hst]
  | verify hst hsc =>
    refine ⟨⟨fun _ => ⟨rfl, ?_⟩, by simp [hst], ?_⟩, hg⟩ <;> simp [hsc]
  | compare v hst _ hsc hkd | justWorks hst _ hsc hkd =>
    refine ⟨.of_state (by simp [hst]) (by simp [hst]) (by simp [hst]) ?_, hg⟩
    rw [hsc, hkd]
    exact h.kd
  | finish ltk _ _ hst hltk _ hsc hkd =>
    refine ⟨⟨fun _ => ⟨rfl, fun _ => ?_⟩, by simp [hst], ?_⟩, hg⟩
    · rw [hltk]
      rfl
    · rw [hsc, hkd]
      exact h.kd
  | persist b hst hb hst' hsc hkd =>
    obtain ⟨hdone, hkey⟩ := h.keys hst
    refine ⟨.of_state (by simp [hst']) (by simp [hst']) (by simp [hst']) ?_, ?_⟩
    · rw [hsc, hkd]
      exact h.kd
    · simp [Ledger.watch, Ledger.see, hg, hdone, hkey, hb]

theorem inv_of_effect {l' : L2cap} {s' : Option Smp} {p' : SecLevel} {ms : List Obs}
    (he : Effect { c.link with out := [] } l' ms s' p') (hg : (c.ledger.watch ms).sound = true)
    (hknows : ∀ s, s' = some s → Knows (c.ledger.watch ms) s) :
    Inv ⟨l', c.ledger.watch l'.out⟩ := by
  have hout : marks l'.out = ms := he.out
  have hledger : c.ledger.watch l'.out = c.ledger.watch ms := by rw [Ledger.watch_marks, hout]
  rw [hledger]
  refine ⟨hg, ?_⟩
  rw [he.smp]
  exact hknows

theorem zeroSmp_knows (g : Ledger) : Knows g zeroSmp :=
  .of_state (by decide) (by decide) (by decide) fun _ => rfl

theorem inv_of_move {l' : L2cap} {s' : Smp} {p p' : SecLevel} {ms ms' : List Obs}
    (he : Effect { c.link with out := [] } l' ms' (some s') p')
    (hm : Move s p ms s' p') (hwatch : c.ledger.watch ms' = g.watch ms) (hs : Knows g s)
    (hg : g.sound = true) : Inv ⟨l', c.ledger.watch l'.out⟩ := by
  obtain ⟨hknows, hsound⟩ := move_knows hs hg hm
  rw [← hwatch] at hknows hsound
  refine inv_of_effect he hsound ?_
  rintro _ ⟨⟩
  exact hknows

theorem encryptionChange_inv (T : Toolbox) (enabled : Bool) (hi : c.Inv) :
    (c.step T (.encryptionChange enabled)).Inv := by
  cases enabled with
  | true => exact ⟨hi.sound, hi.knows⟩
  | false =>
    refine ⟨hi.sound, fun s hs => ?_⟩
    have hidle : c.link.smp.map (fun s : Smp => { s with state := .idle }) = some s := hs
    obtain ⟨s, hsmp, rfl⟩ := Option.map_eq_some_iff.mp hidle
    exact .of_state nofun nofun nofun (hi.knows s hsmp).kd

/-- With a pairing that is due, the ledger has the LTK that is going to be stored. -/
theorem keyPhase_knows {i : In} {u : Smp} {sent : List Obs} (hs : Knows g s)
    (hg : g.sound = true) (hst : s.state = .w4Enc)
    (hdue : s.sc = true ∨ s.respKd &&& distEnc ≠ 0 ∧ i.alloc 0 = true)
    (hphase : KeyPhase i s u sent) : Knows (g.watch sent) u ∧ (g.watch sent).sound = true := by
  obtain ⟨hdone, hkey⟩ := hs.done (.inr hst)
  have hkd : u.sc = true → u.respKd = 0 := by
    rw [hphase.sc, hphase.respKd]
    exact hs.kd
  rcases hdue with hsc | ⟨henc, halloc⟩
  · -- nothing is distributed: the LTK is the derived one
    obtain ⟨rfl, hltk⟩ := hphase.none (by rw [hs.kd hsc]; rfl)
    refine ⟨⟨by simp [hphase.state], fun _ => ⟨hdone, ?_⟩, hkd⟩, hg⟩
    rw [hltk]
    exact hkey hsc
  · rw [hphase.fresh henc, if_pos halloc]
    refine ⟨⟨by simp [hphase.state], fun _ => ⟨hdone, ?_⟩, hkd⟩, hg⟩
    simp [Ledger.watch, Ledger.see, hdone]

theorem step_inv (T : Toolbox) {c' : Conn} {e : Event} (hi : c.Inv) (hd : c.due e = true)
    (hs : c.Steps T e c') : c'.Inv := by
  cases hs
  have hout := c.link.step_outcome T e
  unfold step
  generalize c.link.step T e = l' at hout ⊢
  cases hout with
  | quiet h | bond b h | reject h => exact inv_of_effect h hi.sound hi.knows
  | pdu hpairs hdoes =>
    obtain ⟨ms, s', p', heff, hmove⟩ := hdoes
    refine inv_of_move heff hmove rfl ?_ hi.sound
    rcases hpairs with hs | ⟨-, rfl⟩
    · exact hi.knows _ hs
    · exact zeroSmp_knows _
  | refused h => exact inv_of_effect h hi.sound fun _ h => absurd h (Option.some_ne_none _).symm
  | @confirm i s s' ms p' hs hst heff hmove =>
    have hconf : Knows c.ledger { s with userOk := true } :=
      .of_state (by simp [hst]) (by simp [hst]) (by simp [hst]) (hi.knows s hs).kd
    exact inv_of_move heff hmove rfl hconf hi.sound
  | finished _ hs hst heff =>
    have hknows := hi.knows _ hs
    refine inv_of_effect heff hi.sound ?_
    rintro _ ⟨⟩
    exact ⟨fun _ => hknows.done (.inl hst), nofun, hknows.kd⟩
  | encryption h =>
    rw [h]
    exact encryptionChange_inv T _ hi
  | unbonded hs heff =>
    refine inv_of_effect heff hi.sound ?_
    rintro _ ⟨⟩
    exact .of_state nofun nofun nofun (hi.knows _ hs).kd
  | @keys i s u s' sent ms hsignal hs hb hphase heff hmove =>
    have hs : c.link.smp = some s := hs
    have hdue : s.state = .w4Enc ∧ (s.sc = true ∨ s.respKd &&& distEnc ≠ 0 ∧ i.alloc 0 = true) := by
      simpa [due, hs, show c.link.smpSignal = true from hsignal, hb] using hd
    obtain ⟨hu, hg⟩ := keyPhase_knows (hi.knows s hs) hi.sound hdue.1 hdue.2 hphase
    exact inv_of_move heff hmove (Ledger.watch_append ..) hu hg

/-! ## Bonds -/

/-- In every run of a connection in which the deferred part of an encryption change only finds
pairings that are due, every bond that was stored carried the LTK that a completed pairing of
this connection had derived or distributed. -/
theorem bonds_sound (T : Toolbox) (ourAddr peerAddr : Bytes 6) (ourAddrType peerAddrType : Byte)
    (canEncrypt : Bool) (bonds : Bonds) (es : List Event) (c : Conn)
    (h : Run (Guarded (fun c e => c.due e = true) (Steps T))
      (start (l2capConnect ourAddr peerAddr ourAddrType peerAddrType canEncrypt bonds)) es c) :
    c.ledger.sound = true := by
  refine (h.invariant (I := Inv) ⟨rfl, fun s hs => nomatch hs⟩ ?_).sound
  rintro u e v hi ⟨hd, hs⟩
  exact step_inv T hi hd hs

/-- A bonded central, with the all-zero address and an LTK of ones. -/
def oldBond : Bond :=
  { zeroBond with valid := true, sc := true, ltk := Vector.replicate 16 1, level := .encrypted }

def bonded : Conn :=
  start (l2capConnect (zeroBytes 6) (zeroBytes 6) 0 0 true #v[oldBond, zeroBond, zeroBond, zeroBond])

/-- A Pairing Request for Secure Connections, with bonding and without keys of the central. -/
def scReq : List Byte := [0x01, 0x03, 0, 0x09, 16, 0, 0]

/-- A Secure Connections pairing of a central whose values are all zero, up to its bond. -/
def pairAndBond : List Event :=
  let i := { zeroIn with keygen := some (zeroBytes 64, zeroBytes 32) }
  [.pdu i scReq, .pdu i (0x0c :: (zeroBytes 64).toList), .pdu i (0x04 :: (zeroBytes 16).toList),
    .pdu i (0x0d :: (zeroBytes 16).toList), .ltkRequest 0 0, .encryptionChange true, .smpTask i]

theorem paired_bond_stored : ∃ es c,
    Run (Guarded (fun c e => c.due e = true) (Steps zeroToolbox)) bonded es c ∧
      c.ledger.key = some (c.link.bonds[0].ltk) ∧ c.ledger.sound = true := by
  have hrun := guarded_run_foldl due (step zeroToolbox) bonded pairAndBond (by decide +kernel)
  exact ⟨_, _, hrun, by decide +kernel, bonds_sound zeroToolbox _ _ _ _ _ _ _ _ hrun⟩

/-- The pairing is only started; then the central has the link encrypted with its bond. -/
def startThenEncrypt : List Event :=
  [.pdu zeroIn scReq, .ltkRequest 0 0, .encryptionChange true, .smpTask zeroIn]

/-- Whatever the toolbox computes, the bond is overwritten with an LTK of no pairing. -/
def StartedPairingOverwritesBond : Prop :=
  ∀ T : Toolbox, ∃ es c, Run (Steps T) bonded es c ∧ c.ledger.completed = false ∧
    c.ledger.sound = false ∧ bonded.link.bonds[0].ltk ≠ c.link.bonds[0].ltk ∧
    c.link.bonds[0].ltk = zeroBytes 16

theorem started_pairing_overwrites_bond : StartedPairingOverwritesBond := by
  intro T
  refine ⟨startThenEncrypt, _, run_foldl (step T) bonded startThenEncrypt, rfl, rfl, ?_, rfl⟩
  show Vector.replicate 16 1 ≠ zeroBytes 16
  decide

end Conn

end Mios.Ble.Bonding
