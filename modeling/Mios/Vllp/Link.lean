import Mios.Vllp.DeviceRx
import Mios.Vllp.HostLink

/-! A host and a device joined by two FIFO queues that may lose any frame. Next to
the ends and the queues the state records what the statements are about: the cookie
under which the device sent a frame, the cookies the host has used and entered a
session with, and for each end what it did in its current session. -/

namespace Mios.Vllp

open Lib Crc32 Pbuf List

/-! ## The system -/

/-- `origin` lists the cookies of the frames in the receive queue of the host. -/
structure Link where
  host : Host
  dev : Dev
  toDev : List (List Byte)
  toHost : List (List Byte × BitVec 32)
  origin : List (BitVec 32)
  used : List (BitVec 32)
  entered : List (BitVec 32)
  hostHist : AltBit.Hist Frag
  devHist : AltBit.Hist Frag

inductive LinkEvent where
  | host (e : HostEvent)
  | arrive
  | dev (e : DevEvent)
  | deliver (i : In)
  | loseToDev (n : Nat)
  | loseToHost (n : Nat)

namespace Link

/-- The host went on to `h`, perhaps into a new session. -/
def hostDid (x : Link) (h : Host) : Link :=
  let enters := !x.host.connected && h.connected
  { x with
    host := h
    toDev := x.toDev ++ txs h.out
    origin := x.origin.drop (x.host.rxq.length - h.rxq.length)
    used := h.crcIV :: x.used
    entered := if enters then h.crcIV :: x.entered else x.entered
    hostHist := if enters then .empty else x.hostHist.acts (acts h.out) }

/-- The device went on to `d`, leaving `toDev`; `starts` says that it took a link request. -/
def devDid (x : Link) (d : Dev) (toDev : List (List Byte)) (starts : Bool) : Link :=
  { x with
    dev := d
    toDev := toDev
    toHost := x.toHost ++ (txs d.out).map (·, d.crcIV)
    devHist := (if starts then .empty else x.devHist).acts (acts d.out) }

/-- The next frame reaches `vllp_input`, which may drop it. -/
def hostInput (x : Link) (frame : List Byte) (cookie : BitVec 32)
    (rest : List (List Byte × BitVec 32)) : Link :=
  let h := x.host.vllpInput frame
  { x with
    host := h
    toHost := rest
    origin := x.origin ++ List.replicate (h.rxq.length - x.host.rxq.length) cookie }

/-- One event; none if it cannot happen or halts the end it happens at. -/
def step (x : Link) : LinkEvent → Option Link
  | .host (.input _) => none
  | .host e => (x.host.step e).toOption.map x.hostDid
  | .arrive =>
      match x.toHost with
      | [] => none
      | (frame, cookie) :: rest => some (x.hostInput frame cookie rest)
  | .dev (.rx _ _) => none
  | .dev e => (x.dev.step e).toOption.map fun d => x.devDid d x.toDev false
  | .deliver i =>
      match x.toDev with
      | [] => none
      | frame :: rest =>
          (x.dev.step (.rx i frame)).toOption.map fun d =>
            x.devDid d rest (x.dev.takesSyn ((stripPad frame).getD []))
  | .loseToDev n => some { x with toDev := x.toDev.eraseIdx n }
  | .loseToHost n => some { x with toHost := x.toHost.eraseIdx n }

abbrev Steps (x : Link) (e : LinkEvent) (x' : Link) : Prop := x.step e = some x'

/-- Both ends as they are created on a link with frames of `mtu` bytes. -/
def start (mtu : Nat) : Link :=
  ⟨vllpCreate true (decide (8 < mtu)) mtu, vllpServerCreate mtu, [], [], [], [0], [], .empty, .empty⟩

/-- Both ends are connected with one cookie. -/
def InSession (x : Link) : Prop :=
  x.host.connected = true ∧ x.dev.connected = true ∧ x.host.crcIV = x.dev.crcIV

/-- In both directions: what was accepted is a prefix of what was put on the wire, and
nothing was discarded before it was accepted. -/
def Safe (x : Link) : Prop := AltBit.Safe x.hostHist x.devHist

instance (x : Link) : Decidable x.InSession := inferInstanceAs (Decidable (_ ∧ _ ∧ _))
instance (x : Link) : Decidable x.Safe := inferInstanceAs (Decidable (AltBit.Safe _ _))

/-! ## Clean steps -/

/-- A host without a session finds what it takes for the answer to its link request. -/
def answered (x : Link) : Bool :=
  !x.host.connected && match x.host.rxq with
    | [] => false
    | f :: _ => f.head? == some Host.synResponse && crc32 x.host.crcIV f == BitVec.allOnes 32

/-- With nothing outstanding, on an answer to its own request, and once per cookie. -/
def MayEnter (x : Link) : Prop :=
  x.host.currentTx = none ∧ x.origin.head? = some x.host.crcIV ∧ x.host.crcIV ∉ x.entered

instance (x : Link) : Decidable x.MayEnter := inferInstanceAs (Decidable (_ ∧ _ ∧ _))

/-- The cookie a round would use, if any, is a new one. -/
def Fresh (x : Link) : Option (BitVec 32) → Prop
  | none => True
  | some c => c ∉ x.used

instance (x : Link) : ∀ ask, Decidable (x.Fresh ask)
  | none => isTrue trivial
  | some c => inferInstanceAs (Decidable (c ∉ x.used))

/-- No session starts on top of an old one: a new cookie was not used before, the host
enters only if it may, and the device takes no request while a fragment is outstanding from between two
sessions. -/
def Clean (x : Link) : LinkEvent → Prop
  | .host (.thread i) =>
      (x.host.connected = false → x.Fresh i.cookie) ∧
      (x.answered = true → x.MayEnter)
  | .deliver _ =>
      ∀ frame ∈ x.toDev.head?, x.dev.takesSyn ((stripPad frame).getD []) = true →
        x.dev.connected = true ∨ x.dev.currentTxBuf = []
  | _ => True

instance (x : Link) : ∀ e : LinkEvent, Decidable (x.Clean e)
  | .host (.thread _) => inferInstanceAs (Decidable ((_ → _) ∧ (_ → _)))
  | .deliver _ => inferInstanceAs (Decidable (∀ frame ∈ x.toDev.head?, _ → _ ∨ _))
  | .host (.input _) | .host (.create ..) | .host (.send ..) | .host (.close ..)
  | .host (.closeTimeout _) | .host (.read _) | .host (.readTimeout _) | .arrive | .dev _
  | .loseToDev _ | .loseToHost _ => isTrue trivial

/-! ## The invariant -/

/-- The frames on their way to the host, oldest first, with the cookies of their origin. -/
def inFlight (x : Link) : List (AltBit.Frame Frag × BitVec 32) :=
  (x.host.rxq.map readFrame).zip x.origin ++ x.toHost.map fun p => (decode p.1, p.2)

/-- Those of them that belong to the session the host is in or asks for. -/
def fromDev (x : Link) : List (AltBit.Frame Frag) :=
  (x.inFlight.filter (·.2 == x.host.crcIV)).map (·.1)

/-- The bookkeeping every state satisfies. -/
structure Base (x : Link) : Prop where
  host : x.host.Wf
  dev : x.dev.Wf
  mtu : x.dev.mtu = x.host.mtu
  origin : x.origin.length = x.host.rxq.length
  short : x.host.mtu ≤ 8 → ∀ p ∈ x.toHost, p.1.length ≤ 8
  requests : ∀ f ∈ x.toDev, f.head? = some synByte →
    ∃ c ∈ x.used, f = Host.synFrame x.host.mtu c
  usedHost : x.host.crcIV ∈ x.used
  usedDev : x.dev.crcIV ∈ x.used
  usedFlight : ∀ p ∈ x.inFlight, p.2 ∈ x.used

/-- The request of the host as it stands in the queue. -/
def request (x : Link) : List Byte := Host.synFrame x.host.mtu x.host.crcIV

/-- Where the two ends are with the cookie of the host. -/
inductive Phase (x : Link) : Prop
  | asking (pre : List (List Byte)) (hq : x.toDev = pre ++ [x.request]) (hpre : x.request ∉ pre)
      (hconn : x.host.connected = false) (hdev : x.dev.crcIV ≠ x.host.crcIV)
      (hold : ∀ p ∈ x.inFlight, p.2 ≠ x.host.crcIV)
  | opening (hconn : x.host.connected = false) (hdev : x.dev.connected = true)
      (hiv : x.dev.crcIV = x.host.crcIV) (hq : x.toDev = [])
      (horder : x.inFlight.Pairwise fun p q => p.2 = x.host.crcIV → q.2 = x.host.crcIV)
      (hreach : Relation.ReflTransGen AltBit.Step AltBit.Sys.start
        ⟨.start, ⟨x.dev.view, x.devHist⟩, [], x.fromDev⟩)
  | opened (hconn : x.host.connected = true) (hdev : x.dev.connected = true)
      (hiv : x.dev.crcIV = x.host.crcIV) (hent : x.host.crcIV ∈ x.entered)
      (hplain : ∀ f ∈ x.toDev, f.head? ≠ some synByte)
      (hnew : ∀ p ∈ x.inFlight, p.2 = x.host.crcIV)
      (hreach : Relation.ReflTransGen AltBit.Step AltBit.Sys.start
        ⟨⟨x.host.view, x.hostHist⟩, ⟨x.dev.view, x.devHist⟩, x.toDev.map decode, x.fromDev⟩)
  | closed (hq : x.request ∉ x.toDev)
      (h : ¬ (x.dev.connected = true ∧ x.dev.crcIV = x.host.crcIV) ∨
        x.host.connected = false ∧ x.host.crcIV ∈ x.entered)

/-! ## Steps of the host -/

variable {c : BitVec 32} {h : Host} {x x' : Link}

theorem synFrame_inj {mtu : Nat} {c' : BitVec 32}
    (h : Host.synFrame mtu c = Host.synFrame mtu c') : c = c' := by
  have h' : le32 c = le32 c' := by simpa [Host.synFrame] using h
  rw [← ofLe32_le32 c [], h', ofLe32_le32]

theorem inFlight_same (hrxq : h.rxq = x.host.rxq) : (x.hostDid h).inFlight = x.inFlight := by
  simp [inFlight, hostDid, hrxq]

/-- The host takes the oldest frame. -/
theorem inFlight_pop (hb : x.Base) {f : List Byte} (hrxq : x.host.rxq = f :: h.rxq) :
    ∃ o, x.origin.head? = some o ∧ x.inFlight = (readFrame f, o) :: (x.hostDid h).inFlight := by
  have hlen := hb.origin
  cases ho : x.origin with
  | nil => simp [ho, hrxq] at hlen
  | cons o os => exact ⟨o, rfl, by simp [inFlight, hostDid, hrxq, ho]⟩

/-- What every step of the host that is not a new request keeps. -/
structure HostKeeps (x : Link) (h : Host) : Prop where
  crcIV : h.crcIV = x.host.crcIV
  config : h.config = x.host.config
  wf : h.Wf
  plain : ∀ f ∈ txs h.out, f.head? ≠ some synByte
  rxq : h.rxq = x.host.rxq ∨ ∃ f, x.host.rxq = f :: h.rxq

theorem HostKeeps.mtu (hk : x.HostKeeps h) : h.mtu = x.host.mtu := congrArg (·.2.2) hk.config

theorem plain_txs {v : Host} (hv : v.out = []) (hp : v.Plain h) :
    ∀ f ∈ txs h.out, f.head? ≠ some synByte := by
  intro f hf
  rcases hp f (mem_txs.mp hf) with hf | hf
  · simp [hv] at hf
  · exact hf

/-- What happens at a host without a session, apart from a new request. -/
inductive Offline (x : Link) (h : Host) : Prop
  | entered (f : List Byte) (hrxq : x.host.rxq = f :: h.rxq) (hans : x.answered = true)
      (hconn : h.connected = true) (hview : h.view = x.host.view) (hout : acts h.out = [])
  | silent (hconn : h.connected = false) (hout : acts h.out = [])

/-- What happens at a host in a session. -/
inductive Online (x : Link) (h : Host) : Prop
  | sent (hrxq : h.rxq = x.host.rxq) (hconn : h.connected = true)
      (hl : AltBit.Local x.host.view (acts h.out) h.view)
  | handled (f : List Byte) (hrxq : x.host.rxq = f :: h.rxq) (hconn : h.connected = true)
      (hr : AltBit.Receive (readFrame f) x.host.view (acts h.out) h.view)
  | ended (hconn : h.connected = false)

theorem acts_of_emits {mtu : Nat} {as : List (AltBit.Act Frag)} {evs : List Ev}
    (h : Emits mtu [] as evs) : acts evs = as := by
  obtain ⟨evs', rfl, rfl, -⟩ := h
  rfl

theorem txs_of_acts {evs : List Ev} (h : acts evs = []) : txs evs = [] := by
  have := sent_acts evs
  rw [h] at this
  simpa [AltBit.sent] using this.symm

theorem host_cases {ask : Option (BitVec 32)} (hm : Host.Moves ask { x.host with out := [] } h) :
    (∃ c, ask = some c ∧ Host.Asks { x.host with out := [] } h c) ∨ x.HostKeeps h ∧
      (x.host.connected = false → x.Offline h) ∧ (x.host.connected = true → x.Online h) := by
  have absurdConn : ∀ {b : Bool}, b = true → b = false → False := fun h h' => by simp [h] at h'
  cases hm with
  | quiet hq =>
    have hacts : acts h.out = [] := acts_of_emits hq.out
    refine .inr ⟨⟨hq.endpoint.crcIV, hq.config, hq.wf, by simp [txs_of_acts hacts], .inl hq.rxq⟩,
      fun hc => .silent (hq.connected.trans hc) hacts,
      fun hc => .sent hq.rxq (hq.connected.trans hc) ?_⟩
    rw [hacts, show h.view = x.host.view from hq.endpoint.view]
    exact .nil _
  | sent hconn hsent =>
    obtain ⟨as, hem, hl⟩ := hsent.acts
    refine .inr ⟨⟨hsent.crcIV, hsent.config, hsent.wf, plain_txs rfl hsent.plain, .inl hsent.rxq⟩,
      fun hc => (absurdConn hconn hc).elim,
      fun _ => .sent hsent.rxq (hsent.connected.trans hconn) ?_⟩
    rw [show acts h.out = as from acts_of_emits hem]
    exact hl
  | ended hend =>
    have hacts : acts h.out = [] := acts_of_emits hend.out
    exact .inr ⟨⟨hend.crcIV, hend.config, hend.wf, by simp [txs_of_acts hacts], .inl hend.rxq⟩,
      fun _ => .silent hend.connected hacts, fun _ => .ended hend.connected⟩
  | failed f rest hq hend =>
    have hacts : acts h.out = [] := acts_of_emits hend.out
    have hrxq : x.host.rxq = f :: h.rxq := by rw [hend.rxq]; exact hq
    exact .inr ⟨⟨hend.crcIV, hend.config, hend.wf, by simp [txs_of_acts hacts], .inr ⟨f, hrxq⟩⟩,
      fun _ => .silent hend.connected hacts, fun _ => .ended hend.connected⟩
  | handled f rest hq hconn hh =>
    have hrxq : x.host.rxq = f :: h.rxq := by rw [hh.rxq]; exact hq
    obtain ⟨as, hem, hr⟩ := hh.acts
    refine .inr ⟨⟨hh.crcIV, hh.config, hh.wf, plain_txs rfl hh.plain, .inr ⟨f, hrxq⟩⟩,
      fun hc => (absurdConn hconn hc).elim,
      fun _ => .handled f hrxq (hh.connected.trans hconn) ?_⟩
    rw [show acts h.out = as from acts_of_emits hem]
    exact hr
  | entered f rest hq hf hcrc hent =>
    have hrxq : x.host.rxq = f :: h.rxq := by rw [hent.rxq]; exact hq
    have hacts : acts h.out = [] := acts_of_emits hent.out
    have hconn : x.host.connected = false := hent.connected.1
    refine .inr ⟨⟨hent.crcIV, hent.config, hent.wf, by simp [txs_of_acts hacts], .inr ⟨f, hrxq⟩⟩,
      fun _ => .entered f hrxq ?_ hent.connected.2 hent.view hacts,
      fun hc => (absurdConn hc hconn).elim⟩
    simpa [answered, hconn, hrxq, hf] using hcrc
  | asked c hc ha => exact .inl ⟨c, hc, ha⟩

theorem HostKeeps.sublist (hb : x.Base) (hk : x.HostKeeps h) :
    (x.hostDid h).inFlight.Sublist x.inFlight := by
  rcases hk.rxq with hrxq | ⟨f, hrxq⟩
  · simp only [inFlight_same hrxq, List.Sublist.refl]
  · obtain ⟨o, -, hin⟩ := inFlight_pop hb hrxq
    rw [hin]
    exact sublist_cons_self _ _

/-- The books stay right if the host asks with its own cookie only. -/
theorem Base.hostDid (hb : x.Base) (hw : h.Wf) (hm : h.mtu = x.host.mtu)
    (hlen : h.rxq.length ≤ x.host.rxq.length)
    (hsyn : ∀ f ∈ txs h.out, f.head? = some synByte → f = Host.synFrame h.mtu h.crcIV)
    (hin : (x.hostDid h).inFlight.Sublist x.inFlight) : (x.hostDid h).Base := by
  refine ⟨hw, hb.dev, hb.mtu.trans hm.symm, ?_, fun h8 => hb.short (hm ▸ h8), ?_, by simp [Link.hostDid],
    .tail _ hb.usedDev,
    fun p hp => .tail _ (hb.usedFlight p (hin.subset hp))⟩
  · simp only [Link.hostDid, length_drop, hb.origin]
    omega
  intro f hf hhead
  rcases mem_append.mp hf with hf | hf
  · obtain ⟨c, hc, rfl⟩ := hb.requests f hf hhead
    exact ⟨c, .tail _ hc, by simp [Link.hostDid, hm]⟩
  · exact ⟨h.crcIV, mem_cons_self, hsyn f hf hhead⟩

/-- A new request goes to the end of the queue, and the frames the host had not looked
at are gone. -/
theorem asked_spec (hb : x.Base) (ha : Host.Asks { x.host with out := [] } h c) :
    (x.hostDid h).Base ∧ (x.hostDid h).toDev = x.toDev ++ [(x.hostDid h).request] ∧
      (x.hostDid h).inFlight.Sublist x.inFlight ∧ h.crcIV = c ∧ h.connected = false ∧
      h.mtu = x.host.mtu := by
  have hm : h.mtu = x.host.mtu := congrArg (·.2.2) ha.config
  have hq : (x.hostDid h).toDev = x.toDev ++ [(x.hostDid h).request] := by
    simp [Link.hostDid, ha.out, txs, request, hm, ha.crcIV]
  have hin : (x.hostDid h).inFlight.Sublist x.inFlight := by
    simp [inFlight, Link.hostDid, ha.rxq]
  refine ⟨hb.hostDid ha.wf hm (by simp [ha.rxq]) ?_ hin, hq, hin, ha.crcIV, ha.connected.2, hm⟩
  simp [ha.out, txs, ha.crcIV, hm]

theorem Base.host_step {ask : Option (BitVec 32)} (hb : x.Base)
    (hm : Host.Moves ask { x.host with out := [] } h) : (x.hostDid h).Base := by
  rcases host_cases hm with ⟨c, -, ha⟩ | ⟨hk, -⟩
  · exact (asked_spec hb ha).1
  · refine hb.hostDid hk.wf hk.mtu ?_ (fun f hf hsyn => absurd hsyn (hk.plain f hf)) (hk.sublist hb)
    rcases hk.rxq with hrxq | ⟨f, hrxq⟩
    · simp [hrxq]
    · simp [hrxq]

/-- Frames that get lost, or are taken without being looked at, are lost for the session. -/
theorem fromDev_sublist (hiv : x'.host.crcIV = x.host.crcIV)
    (hin : x'.inFlight.Sublist x.inFlight) : x'.fromDev.Sublist x.fromDev := by
  unfold fromDev
  rw [hiv]
  exact (hin.filter _).map _

theorem asking_of_asked (hb : x.Base) (hfresh : c ∉ x.used)
    (ha : Host.Asks { x.host with out := [] } h c) : (x.hostDid h).Phase := by
  obtain ⟨-, hq, hin, hiv, hconn, hm⟩ := asked_spec hb ha
  subst hiv
  refine .asking x.toDev hq ?_ hconn ?_ ?_
  · intro hmem
    obtain ⟨d, hd, heq⟩ := hb.requests _ hmem rfl
    have hdc : h.crcIV = d := synFrame_inj (by rw [← hm] at heq; exact heq)
    exact hfresh (hdc ▸ hd)
  · intro heq
    exact hfresh (heq ▸ hb.usedDev)
  · intro p hp heq
    exact hfresh (heq ▸ hb.usedFlight p (hin.subset hp))

/-- A host that enters starts with the bits of a new session. -/
theorem view_start (hb : x.Base) (hconn : x.host.connected = false)
    (htx : x.host.currentTx = none) : x.host.view = ⟨false, true, none⟩ := by
  obtain ⟨hs, he⟩ := hb.host.reset hconn
  simp [Host.view, Host.currentFrag, hs, he, htx]

/-- Frames to the host disappear, or move from the queue to `vllp_input`; a host in a session
does nothing else. -/
theorem phase_toHost (hp : x.Phase) (hdev : x'.dev = x.dev) (hsame : x.host.connected = true →
      x'.host.view = x.host.view ∧ x'.hostHist = x.hostHist)
    (hconn : x'.host.connected = x.host.connected)
    (hiv : x'.host.crcIV = x.host.crcIV) (hmtu : x'.host.mtu = x.host.mtu)
    (hq : x'.toDev = x.toDev) (hent : x'.entered = x.entered) (hhist : x'.devHist = x.devHist)
    (hin : x'.inFlight.Sublist x.inFlight) : x'.Phase := by
  have hreq : x'.request = x.request := by simp [request, hmtu, hiv]
  have hfrom := fromDev_sublist hiv hin
  cases hp with
  | asking pre hpq hpre hc hne hold =>
    exact .asking pre (by rw [hq, hreq]; exact hpq) (by rw [hreq]; exact hpre) (hconn.trans hc)
      (by rw [hdev, hiv]; exact hne) (fun p hmem => by rw [hiv]; exact hold p (hin.subset hmem))
  | opening hc hd heq hpq horder hreach =>
    refine .opening (hconn.trans hc) (by rw [hdev]; exact hd) (by rw [hdev, hiv]; exact heq)
      (hq.trans hpq) (by rw [hiv]; exact horder.sublist hin) ?_
    rw [hdev, hhist]
    exact hreach.tail (.loseBA _ _ hfrom)
  | opened hc hd heq hmem hplain hnew hreach =>
    refine .opened (hconn.trans hc) (by rw [hdev]; exact hd) (by rw [hdev, hiv]; exact heq)
      (by rw [hiv, hent]; exact hmem) (by rw [hq]; exact hplain)
      (fun p hp => by rw [hiv]; exact hnew p (hin.subset hp)) ?_
    rw [(hsame hc).1, (hsame hc).2, hdev, hhist, hq]
    exact hreach.tail (.loseBA _ _ hfrom)
  | closed hpq hover =>
    exact .closed (by rw [hreq, hq]; exact hpq) (by rw [hdev, hiv, hconn, hent]; exact hover)

section HostStep

variable {x : Link} {ask : Option (BitVec 32)} {h : Host}

theorem phase_offline (hb : x.Base) (hp : x.Phase) (hconn : x.host.connected = false)
    (hfresh : x.Fresh ask) (henter : x.answered = true → h.connected = true → x.MayEnter)
    (hm : Host.Moves ask { x.host with out := [] } h) : (x.hostDid h).Phase := by
  rcases host_cases hm with ⟨c, hc, ha⟩ | ⟨hk, hoff, -⟩
  · exact asking_of_asked hb (by rw [hc] at hfresh; exact hfresh) ha
  have hiv := hk.crcIV
  have hreq : (x.hostDid h).request = x.request := by simp [request, hostDid, hk.mtu, hiv]
  have hin := hk.sublist hb
  cases hoff hconn with
  | silent hconn' hout =>
    exact phase_toHost hp rfl (fun hc => by simp [hconn] at hc) (hconn'.trans hconn.symm) hiv hk.mtu
      (by simp [hostDid, txs_of_acts hout]) (by simp [hostDid, hconn']) rfl hin
  | entered f hrxq hans hconn' hview hout =>
    obtain ⟨hidle, hhead, hnew⟩ := henter hans hconn'
    obtain ⟨o, ho, hpop⟩ := inFlight_pop hb hrxq
    rw [hhead, Option.some.injEq] at ho
    have hq : (x.hostDid h).toDev = x.toDev := by simp [hostDid, txs_of_acts hout]
    have hent : (x.hostDid h).entered = h.crcIV :: x.entered := by simp [hostDid, hconn, hconn']
    have hhist : (x.hostDid h).hostHist = .empty := by simp [hostDid, hconn, hconn']
    cases hp with
    | asking pre hpq hpre _ hdev hold =>
      have hne := hold (readFrame f, o) (hpop ▸ mem_cons_self)
      exact absurd ho.symm hne
    | opening _ hdev heq hpq horder hreach =>
      rw [hpop] at horder
      have hrest := (pairwise_cons.mp horder).1
      refine .opened hconn' hdev (heq.trans hiv.symm) (by rw [hent]; exact (.head _))
        (by simp [hq, hpq]) ?_ ?_
      · intro p hmem
        exact (hrest p hmem ho.symm).trans hiv.symm
      have hside : (⟨h.view, (x.hostDid h).hostHist⟩ : AltBit.Side Frag) = .start := by
        rw [hhist, hview, view_start hb hconn hidle]
        rfl
      rw [show (x.hostDid h).host.view = h.view from rfl, hside, hq, hpq]
      exact hreach.tail (.loseBA _ _ (fromDev_sublist hiv hin))
    | opened hc => simp [hconn] at hc
    | closed hpq hover =>
      refine .closed (by rw [hq, hreq]; exact hpq) (.inl ?_)
      rw [show (x.hostDid h).host.crcIV = _ from hiv]
      exact hover.resolve_right fun ho => hnew ho.2

/-- Frames that are not requests leave the request where it is. -/
theorem request_not_mem_append {q fs : List (List Byte)} (hq : x.request ∉ q)
    (hfs : ∀ f ∈ fs, f.head? ≠ some synByte) : x.request ∉ q ++ fs := by
  intro hmem
  rcases mem_append.mp hmem with hmem | hmem
  · exact hq hmem
  · exact hfs _ hmem rfl

theorem phase_online (hb : x.Base) (hp : x.Phase) (hconn : x.host.connected = true)
    (hm : Host.Moves ask { x.host with out := [] } h) : (x.hostDid h).Phase := by
  rcases host_cases hm with ⟨c, -, ha⟩ | ⟨hk, -, hon⟩
  · exact absurd (hconn.symm.trans ha.connected.1) (by simp)
  have hiv := hk.crcIV
  have hreq : (x.hostDid h).request = x.request := by simp [request, hostDid, hk.mtu, hiv]
  have hent : (x.hostDid h).entered = x.entered := by simp [hostDid, hconn]
  have hhist : (x.hostDid h).hostHist = x.hostHist.acts (acts h.out) := by simp [hostDid, hconn]
  have hq : (x.hostDid h).toDev.map decode = x.toDev.map decode ++ AltBit.sent (acts h.out) := by
    simp [hostDid, sent_acts]
  cases hp with
  | asking _ _ _ hc | opening hc => simp [hconn] at hc
  | closed hpq hover =>
    refine .closed (by rw [hreq]; exact request_not_mem_append hpq hk.plain) (.inl ?_)
    rw [show (x.hostDid h).host.crcIV = _ from hiv]
    exact hover.resolve_right fun ho => by simp [hconn] at ho
  | opened _ hdev heq hin hplain hnew hreach =>
    have hplain' : ∀ f ∈ (x.hostDid h).toDev, f.head? ≠ some synByte := by
      exact forall_mem_append.mpr ⟨hplain, hk.plain⟩
    have hnew' : ∀ p ∈ (x.hostDid h).inFlight, p.2 = h.crcIV := fun p hmem =>
      (hnew p ((hk.sublist hb).subset hmem)).trans hiv.symm
    cases hon hconn with
    | sent hrxq hconn' hl =>
      have hfrom : (x.hostDid h).fromDev = x.fromDev := by
        rw [fromDev, inFlight_same hrxq, show (x.hostDid h).host.crcIV = _ from hiv]
        rfl
      refine .opened hconn' hdev (heq.trans hiv.symm) (by rw [hent]; exact hiv ▸ hin) hplain' hnew' ?_
      rw [hhist, hq, hfrom]
      exact hreach.tail (.aLocal _ _ _ hl)
    | handled f hrxq hconn' hr =>
      obtain ⟨o, -, hpop⟩ := inFlight_pop hb hrxq
      have ho : o = x.host.crcIV := hnew (readFrame f, o) (hpop ▸ mem_cons_self)
      have hfrom : x.fromDev = readFrame f :: (x.hostDid h).fromDev := by
        rw [fromDev, hpop, fromDev, show (x.hostDid h).host.crcIV = _ from hiv]
        simp [ho]
      refine .opened hconn' hdev (heq.trans hiv.symm) (by rw [hent]; exact hiv ▸ hin) hplain' hnew' ?_
      rw [hhist, hq]
      exact hreach.tail (.aReceive _ _ _ _ _ hfrom hr)
    | ended hconn' =>
      refine .closed (fun hmem => hplain' _ hmem rfl) (.inr ⟨hconn', ?_⟩)
      rw [hent]
      exact hiv ▸ hin

end HostStep

/-! ## Steps of the device -/

section DevStep

variable {x : Link} {d : Dev} {q : List (List Byte)} {starts : Bool}

theorem inFlight_devDid : (x.devDid d q starts).inFlight =
    x.inFlight ++ (txs d.out).map fun f => (decode f, d.crcIV) := by
  simp [inFlight, devDid, Function.comp_def]

/-- What holds of the cookies in flight and of that of the device holds after it sent. -/
theorem flight_devDid {P : BitVec 32 → Prop} (hold : ∀ p ∈ x.inFlight, P p.2) (hd : P d.crcIV) :
    ∀ p ∈ (x.devDid d q starts).inFlight, P p.2 := by
  intro p hp
  rw [inFlight_devDid] at hp
  rcases mem_append.mp hp with hp | hp
  · exact hold p hp
  · obtain ⟨f, -, rfl⟩ := mem_map.mp hp
    exact hd

/-- In the session of the host all that the device sends belongs to it. -/
theorem fromDev_devDid (hiv : d.crcIV = x.host.crcIV) :
    (x.devDid d q starts).fromDev = x.fromDev ++ AltBit.sent (acts d.out) := by
  have hall : ((txs d.out).map fun f => (decode f, d.crcIV)).filter (·.2 == x.host.crcIV) =
      (txs d.out).map fun f => (decode f, d.crcIV) := filter_eq_self.mpr (by simp [hiv])
  rw [fromDev, inFlight_devDid, sent_acts, show (x.devDid d q starts).host = x.host from rfl,
    filter_append, hall]
  simp [fromDev]

theorem short_of_emits {mtu : Nat} {as : List (AltBit.Act Frag)} {evs : List Ev}
    (h : Emits mtu [] as evs) (h8 : mtu ≤ 8) : ∀ f ∈ txs evs, f.length ≤ 8 := by
  obtain ⟨evs', rfl, -, hshort⟩ := h
  exact fun f hf => hshort f (mem_txs.mp hf) h8

theorem Base.devDid {as : List (AltBit.Act Frag)} (hb : x.Base) (hw : d.Wf)
    (hm : d.mtu = x.dev.mtu) (hiv : d.crcIV ∈ x.used) (hem : Emits x.dev.mtu [] as d.out)
    (hq : q.Sublist x.toDev) : (x.devDid d q starts).Base := by
  refine ⟨hb.host, hw, hm.trans hb.mtu, hb.origin, ?_, fun f hf => hb.requests f (hq.subset hf),
    hb.usedHost, hiv, ?_⟩
  · intro h8 p hp
    rcases mem_append.mp hp with hp | hp
    · exact hb.short h8 p hp
    · obtain ⟨f, hf, rfl⟩ := mem_map.mp hp
      exact short_of_emits hem (by rw [hb.mtu]; exact h8) f hf
  · exact flight_devDid hb.usedFlight hiv

/-- While the request waits, the device is in some other session. -/
theorem asking_devDid {pre : List (List Byte)} (hq : q = pre ++ [x.request])
    (hpre : x.request ∉ pre) (hconn : x.host.connected = false) (hiv : d.crcIV ≠ x.host.crcIV)
    (hold : ∀ p ∈ x.inFlight, p.2 ≠ x.host.crcIV) : (x.devDid d q starts).Phase :=
  .asking pre hq hpre hconn hiv (flight_devDid (P := (· ≠ x.host.crcIV)) hold hiv)

theorem order_devDid (hiv : d.crcIV = x.host.crcIV)
    (horder : x.inFlight.Pairwise fun p q => p.2 = x.host.crcIV → q.2 = x.host.crcIV) :
    (x.devDid d q starts).inFlight.Pairwise fun p q =>
      p.2 = x.host.crcIV → q.2 = x.host.crcIV := by
  rw [inFlight_devDid]
  refine pairwise_append.mpr ⟨horder, ?_, ?_⟩
  · exact pairwise_map.mpr (pairwise_iff_forall_sublist.mpr fun _ _ => hiv)
  · intro _ _ p hp _
    obtain ⟨f, -, rfl⟩ := mem_map.mp hp
    exact hiv

theorem new_devDid (hiv : d.crcIV = x.host.crcIV) (hnew : ∀ p ∈ x.inFlight, p.2 = x.host.crcIV) :
    ∀ p ∈ (x.devDid d q starts).inFlight, p.2 = x.host.crcIV :=
  flight_devDid (P := (· = x.host.crcIV)) hnew hiv

theorem phase_sends (hp : x.Phase) (hconn : d.connected = x.dev.connected)
    (hiv : d.crcIV = x.dev.crcIV) (hl : AltBit.Local x.dev.view (acts d.out) d.view) :
    (x.devDid d x.toDev false).Phase := by
  cases hp with
  | asking pre hpq hpre hc hdev hold => exact asking_devDid hpq hpre hc (hiv ▸ hdev) hold
  | opening hc hdev heq hpq horder hreach =>
    refine .opening hc (hconn.trans hdev) (hiv.trans heq) hpq (order_devDid (hiv.trans heq) horder) ?_
    rw [fromDev_devDid (hiv.trans heq)]
    exact hreach.tail (.bLocal _ _ _ hl)
  | opened hc hdev heq hin hplain hnew hreach =>
    refine .opened hc (hconn.trans hdev) (hiv.trans heq) hin hplain (new_devDid (hiv.trans heq) hnew) ?_
    rw [fromDev_devDid (hiv.trans heq)]
    exact hreach.tail (.bLocal _ _ _ hl)
  | closed hpq hover =>
    refine .closed hpq (hover.imp (fun hn hl => hn ?_) id)
    exact ⟨hconn.symm.trans hl.1, hiv.symm.trans hl.2⟩

/-- The device leaves its session; a request may still be waiting. -/
theorem phase_ends (hp : x.Phase) (hconn : d.connected = false) (hiv : d.crcIV = x.dev.crcIV) :
    (x.devDid d x.toDev false).Phase := by
  have hover : ¬ (d.connected = true ∧ d.crcIV = x.host.crcIV) := by simp [hconn]
  cases hp with
  | asking pre hpq hpre hc hdev hold => exact asking_devDid hpq hpre hc (hiv ▸ hdev) hold
  | opening _ _ _ hpq => exact .closed (by simp [devDid, hpq]) (.inl hover)
  | opened _ _ _ _ hplain => exact .closed (fun hmem => hplain _ hmem rfl) (.inl hover)
  | closed hpq => exact .closed hpq (.inl hover)

variable {rest : List (List Byte)} {frame : List Byte}

/-- A request the device takes is one the host sent. -/
theorem takes_request {f : List Byte} (hb : x.Base) (hmem : frame ∈ x.toDev)
    (hf : stripPad frame = some f) (ht : x.dev.takesSyn f = true) :
    ∃ c ∈ x.used, frame = Host.synFrame x.host.mtu c ∧ ofLe32 (f.drop 3) = c := by
  have hhead : f.head? = some synByte := by
    simp only [Dev.takesSyn, Bool.and_eq_true, beq_iff_eq] at ht
    exact ht.1.1.1
  have hsame : frame.head? = some synByte := by
    rw [← hhead]
    exact (stripPad_head hf (by rintro rfl; cases hhead)).symm
  obtain ⟨c, hc, rfl⟩ := hb.requests frame hmem hsame
  have hstrip : stripPad (Host.synFrame x.host.mtu c) = some (Host.synFrame x.host.mtu c) := by
    simp [stripPad, Host.synFrame, le32_length]
  rw [hstrip, Option.some.injEq] at hf
  subst hf
  refine ⟨c, hc, rfl, ?_⟩
  simpa [Host.synFrame] using ofLe32_le32 c []

/-- The device handles or drops the next frame, or leaves its session over it. -/
theorem phase_received (hp : x.Phase) (hq : x.toDev = frame :: rest) (hiv : d.crcIV = x.dev.crcIV)
    (hconn : d.connected = true → x.dev.connected = true)
    (hr : d.connected = true → AltBit.Receive (decode frame) x.dev.view (acts d.out) d.view) :
    (x.devDid d rest false).Phase := by
  cases hp with
  | asking pre hpq hpre hc hdev hold =>
    rw [hq] at hpq
    cases pre with
    | nil =>
      obtain ⟨-, rfl⟩ := List.cons.inj hpq
      exact .closed (by simp [devDid]) (.inl fun hl => hdev (hiv ▸ hl.2))
    | cons f pre =>
      obtain ⟨-, rfl⟩ := List.cons.inj hpq
      exact asking_devDid rfl (fun hmem => hpre (mem_cons_of_mem f hmem)) hc (hiv ▸ hdev) hold
  | opening _ _ _ hpq => simp [hq] at hpq
  | opened hc hdev heq hin hplain hnew hreach =>
    rw [hq] at hplain
    have hplain' := fun f hf => hplain f (mem_cons_of_mem frame hf)
    by_cases hlive : d.connected = true
    · refine .opened hc hlive (hiv.trans heq) hin hplain' (new_devDid (hiv.trans heq) hnew) ?_
      have hab : x.toDev.map decode = decode frame :: rest.map decode := by rw [hq]; rfl
      rw [fromDev_devDid (hiv.trans heq)]
      exact hreach.tail (.bReceive _ _ _ _ _ hab (hr hlive))
    · exact .closed (fun hmem => hplain' _ hmem rfl) (.inl fun hl => hlive hl.1)
  | closed hpq hover =>
    rw [hq] at hpq
    refine .closed (fun hmem => hpq (mem_cons_of_mem frame hmem))
      (hover.imp (fun hn hl => hn ?_) id)
    exact ⟨hconn hl.1, hiv.symm.trans hl.2⟩

/-- The device takes a request. Only the last one of the host starts a session with it. -/
theorem phase_started {c : BitVec 32} (hp : x.Phase)
    (hq : x.toDev = Host.synFrame x.host.mtu c :: rest) (hiv : d.crcIV = c)
    (hconn : d.connected = true) (hview : d.view = ⟨false, true, none⟩)
    (hacts : acts d.out = [.send ⟨false, true, none⟩]) : (x.devDid d rest true).Phase := by
  cases hp with
  | asking pre hpq hpre hc hdev hold =>
    rw [hq] at hpq
    cases pre with
    | nil =>
      obtain ⟨hreq, rfl⟩ := List.cons.inj hpq
      have heq : d.crcIV = x.host.crcIV := hiv.trans (synFrame_inj hreq)
      have hnone : x.fromDev = [] := by
        simp only [fromDev, map_eq_nil_iff, filter_eq_nil_iff, beq_iff_eq]
        exact hold
      refine .opening hc hconn heq rfl (order_devDid heq ?_) ?_
      · exact pairwise_iff_forall_sublist.mpr fun hs hp =>
          absurd hp (hold _ (hs.subset (by simp)))
      rw [fromDev_devDid heq, hnone]
      have hlocal : AltBit.Local (AltBit.Side.start : AltBit.Side Frag).view (acts d.out) d.view := by
        rw [hacts, hview]
        exact .send _ rfl rfl (by simp) (.nil _)
      exact .tail .refl (.bLocal _ _ _ hlocal)
    | cons f pre =>
      obtain ⟨rfl, rfl⟩ := List.cons.inj hpq
      refine asking_devDid rfl (fun hmem => hpre (.tail _ hmem)) hc ?_ hold
      rintro heq
      exact hpre (by rw [request, ← heq, hiv]; exact (.head _))
  | opening _ _ _ hpq => simp [hq] at hpq
  | opened _ _ _ _ hplain => exact absurd rfl (hplain _ (by rw [hq]; exact (.head _)))
  | closed hpq =>
    rw [hq] at hpq
    refine .closed (fun hmem => hpq (.tail _ hmem)) (.inl fun hl => hpq ?_)
    have heq : d.crcIV = x.host.crcIV := hl.2
    rw [request, ← heq, hiv]
    exact (.head _)

theorem dev_step (hb : x.Base) (hp : x.Phase) {e : DevEvent} (he : ∀ i frame, e ≠ .rx i frame)
    (hs : x.dev.step e = .ok d) :
    (x.devDid d x.toDev false).Base ∧ (x.devDid d x.toDev false).Phase := by
  obtain ⟨d', hs', hw, hcases⟩ := x.dev.step_local e hb.dev he
  rw [hs, Except.ok.injEq] at hs'
  subst hs'
  rcases hcases with hsend | hend
  · obtain ⟨as, hem, hl⟩ := hsend.acts
    have hiv : d.crcIV = x.dev.crcIV := hsend.crcIV
    have hacts : acts d.out = as := acts_of_emits hem
    exact ⟨hb.devDid hw hsend.mtu (hiv ▸ hb.usedDev) hem (.refl _),
      phase_sends hp hsend.connected hiv (hacts ▸ hl)⟩
  · have hiv : d.crcIV = x.dev.crcIV := hend.crcIV
    exact ⟨hb.devDid hw hend.mtu (hiv ▸ hb.usedDev) hend.out (.refl _),
      phase_ends hp hend.connected hiv⟩

theorem deliver_step (hb : x.Base) (hp : x.Phase) {i : In} (hq : x.toDev = frame :: rest)
    (hclean : x.Clean (.deliver i)) (hs : x.dev.step (.rx i frame) = .ok d) :
    (x.devDid d rest (x.dev.takesSyn ((stripPad frame).getD []))).Base ∧
      (x.devDid d rest (x.dev.takesSyn ((stripPad frame).getD []))).Phase := by
  have hv : ({ x.dev with out := [] } : Dev).Wf := { hb.dev with }
  have hsub : rest.Sublist x.toDev := hq ▸ sublist_cons_self frame rest
  obtain ⟨hw, hcases⟩ := vllpRx_cases hv hs
  cases hcases with
  | ended ht hend =>
    have hiv : d.crcIV = x.dev.crcIV := hend.crcIV
    rw [show x.dev.takesSyn ((stripPad frame).getD []) = false from ht]
    refine ⟨hb.devDid hw hend.mtu (hiv ▸ hb.usedDev) hend.out hsub, phase_received hp hq hiv ?_ ?_⟩
    all_goals exact fun hc => absurd (hc.symm.trans hend.connected) (by simp)
  | handled f hf ht hh =>
    have hiv : d.crcIV = x.dev.crcIV := hh.crcIV
    obtain ⟨as, hem, hr⟩ := hh.acts
    have hacts : acts d.out = as := acts_of_emits hem
    rw [hf, Option.getD_some, show x.dev.takesSyn f = false from ht]
    refine ⟨hb.devDid hw hh.mtu (hiv ▸ hb.usedDev) hem hsub, phase_received hp hq hiv ?_ ?_⟩
    · exact fun hc => hh.connected.symm.trans hc
    · intro _
      rw [decode, hf, Option.getD_some, hacts]
      exact hr
  | started f hf ht hst =>
    obtain ⟨c, hc, rfl, hcookie⟩ := takes_request hb (hq ▸ mem_cons_self) hf ht
    have hiv : d.crcIV = c := hst.crcIV.trans hcookie
    have hidle : d.currentTxBuf = [] := hst.idle (hclean _ (by rw [hq]; rfl) (by rw [hf]; exact ht))
    have hview : d.view = ⟨false, true, none⟩ := by
      simp [Dev.view, Dev.currentFrag, hidle, hst.bits.1, hst.bits.2]
    rw [hf, Option.getD_some, show x.dev.takesSyn f = true from ht]
    exact ⟨hb.devDid hw hst.mtu (hiv ▸ hc) hst.out hsub,
      phase_started hp hq hiv hst.connected hview (acts_of_emits hst.out)⟩

end DevStep

/-! ## Losses -/

theorem phase_loseToDev (hp : x.Phase) (n : Nat) :
    Phase { x with toDev := x.toDev.eraseIdx n } := by
  have hsub : (x.toDev.eraseIdx n).Sublist x.toDev := eraseIdx_sublist x.toDev n
  cases hp with
  | asking pre hpq hpre hc hne hold =>
    by_cases hn : n < pre.length
    · refine .asking (pre.eraseIdx n) ?_ ?_ hc hne hold
      · simp only [hpq, eraseIdx_append_of_lt_length hn]
        rfl
      · exact fun hmem => hpre ((eraseIdx_sublist pre n).subset hmem)
    · by_cases hlast : n = pre.length
      · refine .closed ?_ (.inl fun hl => hne hl.2)
        have hgone : x.toDev.eraseIdx n = pre := by
          rw [hpq, eraseIdx_append_of_length_le (by omega)]
          simp [hlast]
        simp only [hgone]
        exact hpre
      · have hsame : x.toDev.eraseIdx n = x.toDev :=
          eraseIdx_of_length_le (by rw [hpq]; simp; omega)
        exact .asking pre (hsame.trans hpq) hpre hc hne hold
  | opening hc hd heq hpq horder hreach =>
    exact .opening hc hd heq (by simp [hpq]) horder hreach
  | opened hc hd heq hmem hplain hnew hreach =>
    exact .opened hc hd heq hmem (fun f hf => hplain f (hsub.subset hf)) hnew
      (hreach.tail (.loseAB _ _ (hsub.map _)))
  | closed hpq hover => exact .closed (fun hmem => hpq (hsub.subset hmem)) hover

/-- `vllp_input` queues the frame without its padding, or drops it. -/
theorem vllpInput_rxq (hb : x.Base) {frame : List Byte}
    (hshort : x.host.mtu ≤ 8 → frame.length ≤ 8) : (x.host.vllpInput frame).rxq = x.host.rxq ∨
      ∃ f, stripPad frame = some f ∧ (x.host.vllpInput frame).rxq = x.host.rxq ++ [f] := by
  have hstrip : (if x.host.fdcan then stripPad frame else some frame) = stripPad frame := by
    split
    · rfl
    · rename_i hfd
      have h8 := hshort (hb.host.pad.resolve_left hfd)
      simp [stripPad, Nat.not_lt.mpr h8]
  unfold Host.vllpInput
  rw [hstrip]
  cases hf : stripPad frame with
  | none => exact .inl rfl
  | some f =>
    cases f with
    | nil => exact .inl rfl
    | cons b f => exact .inr ⟨b :: f, rfl, rfl⟩

theorem vllpInput_same (v : Host) (frame : List Byte) :
    v.vllpInput frame = { v with rxq := (v.vllpInput frame).rxq } := by
  unfold Host.vllpInput
  split <;> rfl

theorem arrive_step {frame : List Byte}
    {rest : List (List Byte × BitVec 32)} (hb : x.Base) (hp : x.Phase)
    (hq : x.toHost = (frame, c) :: rest) :
    (x.hostInput frame c rest).Base ∧ (x.hostInput frame c rest).Phase := by
  have hsame := vllpInput_same x.host frame
  have hrxq := vllpInput_rxq hb (fun h8 => hb.short h8 (frame, c) (hq ▸ mem_cons_self))
  have hin : (x.hostInput frame c rest).inFlight.Sublist x.inFlight ∧
      (x.hostInput frame c rest).origin.length = (x.host.vllpInput frame).rxq.length := by
    rcases hrxq with hrxq | ⟨f, hf, hrxq⟩
    · simp [inFlight, hostInput, hrxq, hq, hb.origin]
    have hread : readFrame f = decode frame := by rw [decode, hf, Option.getD_some]
    simp only [inFlight, hostInput, hrxq, hq, length_append, length_singleton,
      Nat.add_sub_cancel_left, replicate_one, map_append, map_cons,
      hb.origin, and_true]
    rw [zip_append (by simp [hb.origin])]
    simp [hread]
  generalize hu : x.host.vllpInput frame = u at hsame hin
  have hhost : (x.hostInput frame c rest).host = { x.host with rxq := u.rxq } := hu.trans hsame
  have hw := hb.host
  refine ⟨⟨?_, hb.dev, by rw [hhost]; exact hb.mtu, by rw [hhost]; exact hin.2, ?_, ?_, ?_,
    hb.usedDev, fun p hp => hb.usedFlight p (hin.1.subset hp)⟩, ?_⟩
  · rw [hhost]
    exact { hw with }
  · rw [hhost]
    exact fun h8 p hp => hb.short h8 p (by rw [hq]; exact .tail _ hp)
  · rw [hhost]
    exact hb.requests
  · rw [hhost]
    exact hb.usedHost
  · exact phase_toHost hp rfl (fun _ => ⟨by rw [hhost]; rfl, rfl⟩) (by rw [hhost]) (by rw [hhost])
      (by rw [hhost]) rfl rfl rfl hin.1

/-! ## Runs -/

def Inv (x : Link) : Prop := x.Base ∧ x.Phase

theorem start_inv (mtu : Nat) (h : 8 ≤ mtu ∧ mtu ≤ 64) : (start mtu).Inv := by
  refine ⟨⟨vllpCreate_wf mtu h, vllpServerCreate_wf mtu h, ?_, rfl, by simp [start], by simp [start],
    by simp [start, vllpCreate], by simp [start, vllpServerCreate], by simp [start, inFlight, vllpCreate]⟩,
    .closed (by simp [start]) (.inl (by simp [start, vllpServerCreate]))⟩
  by_cases h8 : 8 < mtu <;> simp [start, vllpCreate, vllpServerCreate, h8]

theorem host_step {e : HostEvent} (hi : x.Inv) (he : ∀ f, e ≠ .input f)
    (hclean : x.Clean (.host e)) (hs : x.host.step e = .ok h) : (x.hostDid h).Inv := by
  obtain ⟨hb, hp⟩ := hi
  -- calls of the application are quiet, so only a round of the thread can ask or enter
  have hmoves : ∃ ask, Host.Moves ask { x.host with out := [] } h ∧
      (x.host.connected = false → x.Fresh ask ∧
        (x.answered = true → h.connected = true → x.MayEnter)) := by
    by_cases ht : ∃ i, e = .thread i
    · obtain ⟨i, rfl⟩ := ht
      have hv : ({ x.host with out := [] } : Host).Wf := { hb.host with }
      exact ⟨i.cookie, Host.vllpThread_moves hv hs,
        fun hc => ⟨hclean.1 hc, fun hans _ => hclean.2 hans⟩⟩
    · have hq := Host.step_quiet hb.host he (fun i hi => ht ⟨i, hi⟩) hs
      refine ⟨none, .quiet hq, fun hc => ⟨trivial, fun _ hc' => ?_⟩⟩
      have hconn : h.connected = x.host.connected := hq.endpoint.connected
      exact absurd (hc'.symm.trans (hconn.trans hc)) (by simp)
  obtain ⟨ask, hm, hcond⟩ := hmoves
  refine ⟨hb.host_step hm, ?_⟩
  by_cases hconn : x.host.connected = true
  · exact phase_online hb hp hconn hm
  · have hoff : x.host.connected = false := Bool.eq_false_iff.mpr hconn
    exact phase_offline hb hp hoff (hcond hoff).1 (hcond hoff).2 hm

theorem step_inv {e : LinkEvent} (hi : x.Inv) (hclean : x.Clean e)
    (hs : x.Steps e x') : x'.Inv := by
  obtain ⟨hb, hp⟩ := hi
  unfold Steps step at hs
  split at hs
  · cases hs
  · rename_i e he
    obtain ⟨h, hh, rfl⟩ := ok_of_toOption_map hs
    exact host_step ⟨hb, hp⟩ he hclean hh
  · split at hs
    · cases hs
    · rename_i hq
      cases hs
      exact arrive_step hb hp hq
  · cases hs
  · rename_i e he
    obtain ⟨d, hd, rfl⟩ := ok_of_toOption_map hs
    exact dev_step hb hp he hd
  · split at hs
    · cases hs
    · rename_i hq
      obtain ⟨d, hd, rfl⟩ := ok_of_toOption_map hs
      exact deliver_step hb hp hq hclean hd
  · cases hs
    exact ⟨{ hb with
      requests := fun f hf => hb.requests f ((eraseIdx_sublist _ _).subset hf) }, phase_loseToDev hp _⟩
  · cases hs
    rename_i n
    have hsub := eraseIdx_sublist x.toHost n
    have hin : (inFlight { x with toHost := x.toHost.eraseIdx n }).Sublist x.inFlight :=
      (hsub.map _).append_left _
    exact ⟨{ hb with
      short := fun h8 p hp => hb.short h8 p (hsub.subset hp)
      usedFlight := fun p hp => hb.usedFlight p (hin.subset hp) },
      phase_toHost hp rfl (fun _ => ⟨rfl, rfl⟩) rfl rfl rfl rfl rfl rfl hin⟩

/-- In a session the two ends and the queues are a reachable state of the alternating-bit
protocol. -/
theorem Inv.safe (hi : x.Inv) (hs : x.InSession) : x.Safe := by
  obtain ⟨hhost, hdev, hiv⟩ := hs
  cases hi.2 with
  | asking _ _ _ hc | opening hc => simp [hhost] at hc
  | opened _ _ _ _ _ _ hreach => exact AltBit.Sys.safe_of_reachable hreach
  | closed _ hover =>
    rcases hover with hn | ho
    · exact absurd ⟨hdev, hiv.symm⟩ hn
    · simp [hhost] at ho

/-- In every run of clean steps, whatever is lost and in whatever order the ends act,
a session delivers fragments in order, once, and discards none too early. -/
theorem session_safe_of_clean (mtu : Nat) (hmtu : 8 ≤ mtu ∧ mtu ≤ 64) (es : List LinkEvent)
    (x : Link) (hrun : Run (Guarded Clean Steps) (start mtu) es x) (hs : x.InSession) : x.Safe := by
  have hinv : x.Inv := hrun.invariant (start_inv mtu hmtu) fun _ _ _ hi hstep =>
    step_inv hi hstep.1 hstep.2
  exact hinv.safe hs

/-- A round of the host thread. -/
def round (timedOut ackDue : Bool) (cookie : Option (BitVec 32)) : LinkEvent :=
  .host (.thread ⟨timedOut, false, ackDue, cookie, fun _ => 0, false⟩)

/-- The host opens a channel: handshake, then the first fragment is on the wire. -/
def openRun (cookie : BitVec 32) : List LinkEvent :=
  [.host (.create [0x65] false true), round false true (some cookie), .deliver .calm, .arrive,
    round false false none, round false false none]

/-- The fragment reaches the device and its acknowledgement the host. -/
theorem openRun_safe : ∃ x, Run (Guarded Clean Steps) (start 8)
    (openRun 5 ++ [.deliver .calm, .arrive, round false false none]) x ∧
    x.InSession ∧ x.hostHist.discarded ≠ [] ∧ x.Safe := by
  obtain ⟨x, hrun, hs, hd⟩ := exists_guarded_run
    (P := fun x : Link => x.InSession ∧ x.hostHist.discarded ≠ [])
    (show ∃ x ∈ exec (guardStep Clean step) (start 8)
      (openRun 5 ++ [.deliver .calm, .arrive, round false false none]), _ from by decide +kernel)
  exact ⟨x, hrun, hs, hd, session_safe_of_clean 8 (by decide) _ x hrun hs⟩

/-- The fragment is lost, the host times out and starts a new session with the fragment
still outstanding. The next acknowledgement of the device makes the host discard it,
although the device never saw it. -/
theorem lost_fragment_discarded : ∃ x, Run Steps (start 8)
    (openRun 5 ++ [.loseToDev 0, round true false none, round false true (some 7), .deliver .calm,
      .arrive, round false false none, .dev (.ackTimer .calm), .arrive, round false false none]) x ∧
    x.InSession ∧ ¬ x.Safe :=
  exists_run (by decide +kernel)

end Link

end Mios.Vllp
