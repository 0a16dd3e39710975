import Mios.Lib.Run

/-! The alternating-bit protocol between two endpoints over lossy FIFO queues,
for an arbitrary type of payloads. Every frame carries the sender's sequence bit
`s` and the bit `e` it expects next; a frame without payload is a pure
acknowledgement. An endpoint is known only through its `View` and the `Act`s it
performs, so that two differently written implementations can be plugged in:
each has to show that its local steps are `Local` and that handling a frame is
a `Receive`. The pair is then `Safe` in every reachable state. -/

namespace Mios.Lib.AltBit

open List

variable {F : Type}

structure Frame (F : Type) where
  s : Bool
  e : Bool
  pay : Option F

/-- The two bits of an endpoint and the payload it has not seen acknowledged yet. -/
structure View (F : Type) where
  s : Bool
  e : Bool
  cur : Option F

inductive Act (F : Type) where
  | start (f : F)
  | send (fr : Frame F)
  | accept (f : F)
  | discard (f : F)

/-- What an endpoint may do on its own: start the next payload when none is
outstanding, and send frames with its current bits, empty or with the
outstanding payload. -/
inductive Local : View F → List (Act F) → View F → Prop
  | nil (v : View F) : Local v [] v
  | start {v v' : View F} {acts : List (Act F)} (f : F) (hcur : v.cur = none)
      (h : Local ⟨!v.s, v.e, some f⟩ acts v') : Local v (.start f :: acts) v'
  | send {v v' : View F} {acts : List (Act F)} (fr : Frame F) (hs : fr.s = v.s)
      (he : fr.e = v.e) (hpay : ∀ f, fr.pay = some f → v.cur = some f)
      (h : Local v acts v') : Local v (.send fr :: acts) v'

/-- Accept the payload of `fr` only if its sequence bit is the expected one. -/
inductive Accept (fr : Frame F) : View F → List (Act F) → View F → Prop
  | skip (v : View F) : Accept fr v [] v
  | take (v : View F) (f : F) (hpay : fr.pay = some f) (hs : fr.s = v.e) :
      Accept fr v [.accept f] ⟨v.s, !v.e, v.cur⟩

/-- Drop the outstanding payload only if `fr` no longer expects it. -/
inductive Discard (fr : Frame F) : View F → List (Act F) → View F → Prop
  | keep (v : View F) : Discard fr v [] v
  | drop (v : View F) (f : F) (hcur : v.cur = some f) (he : fr.e ≠ v.s) :
      Discard fr v [.discard f] ⟨v.s, v.e, none⟩

/-- Handling a frame: accept or refuse it, look at its acknowledgement, then go on locally. -/
def Receive (fr : Frame F) (v : View F) (acts : List (Act F)) (v' : View F) : Prop :=
  ∃ v₁ v₂ as ds ls, acts = as ++ ds ++ ls ∧
    Accept fr v as v₁ ∧ Discard fr v₁ ds v₂ ∧ Local v₂ ls v'

variable {fr : Frame F} {as : List (Act F)} {v v' : View F}

theorem Local.trans {v'' : View F} {bs : List (Act F)}
    (h : Local v as v') (h' : Local v' bs v'') : Local v (as ++ bs) v'' := by
  induction h with
  | nil => exact h'
  | start f hcur _ ih => exact .start f hcur (ih h')
  | send fr hs he hpay _ ih => exact .send fr hs he hpay (ih h')

/-- Only accepting moves the expected bit. -/
theorem Local.e_eq (h : Local v as v') : v'.e = v.e := by
  induction h with
  | nil => rfl
  | start _ _ _ ih | send _ _ _ _ _ ih => exact ih

theorem Discard.e_eq (h : Discard fr v as v') : v'.e = v.e := by
  cases h <;> rfl

theorem Local.receive {acts : List (Act F)} (h : Local v acts v') : Receive fr v acts v' :=
  ⟨v, v, [], [], acts, rfl, .skip v, .keep v, h⟩

/-- The frames among some acts, in sending order. -/
def sent : List (Act F) → List (Frame F)
  | [] => []
  | .send fr :: acts => fr :: sent acts
  | _ :: acts => sent acts

/-- Accepting and discarding send nothing. -/
theorem sent_accept_discard {v₁ v₂ w : View F} {ds : List (Act F)}
    (ha : Accept fr v as v₁) (hd : Discard fr w ds v₂) (ls : List (Act F)) :
    sent (as ++ ds ++ ls) = sent ls := by
  cases ha <;> cases hd <;> rfl

/-! ## Histories -/

/-- What an endpoint has done in the session. `wire` lists the distinct payloads it
has put on the wire: two consecutive data frames with one sequence bit carry
one payload, so a payload is listed when the bit differs from `wireS`, the bit of
the last data frame. -/
structure Hist (F : Type) where
  started : List F
  accepted : List F
  discarded : List F
  wire : List F
  wireS : Option Bool

def Hist.empty : Hist F := ⟨[], [], [], [], none⟩

def Hist.act (h : Hist F) : Act F → Hist F
  | .start f => { h with started := h.started ++ [f] }
  | .accept f => { h with accepted := h.accepted ++ [f] }
  | .discard f => { h with discarded := h.discarded ++ [f] }
  | .send ⟨s, _, some f⟩ =>
      if h.wireS = some s then h else { h with wire := h.wire ++ [f], wireS := some s }
  | .send ⟨_, _, none⟩ => h

def Hist.acts (h : Hist F) (acts : List (Act F)) : Hist F := acts.foldl Hist.act h

structure Side (F : Type) where
  view : View F
  hist : Hist F

structure Sys (F : Type) where
  a : Side F
  b : Side F
  ab : List (Frame F)
  ba : List (Frame F)

inductive Step : Sys F → Sys F → Prop
  | aLocal (x : Sys F) (acts : List (Act F)) (v : View F) (h : Local x.a.view acts v) :
      Step x ⟨⟨v, x.a.hist.acts acts⟩, x.b, x.ab ++ sent acts, x.ba⟩
  | aReceive (x : Sys F) (fr : Frame F) (rest : List (Frame F)) (acts : List (Act F))
      (v : View F) (hq : x.ba = fr :: rest) (h : Receive fr x.a.view acts v) :
      Step x ⟨⟨v, x.a.hist.acts acts⟩, x.b, x.ab ++ sent acts, rest⟩
  | bLocal (x : Sys F) (acts : List (Act F)) (v : View F) (h : Local x.b.view acts v) :
      Step x ⟨x.a, ⟨v, x.b.hist.acts acts⟩, x.ab, x.ba ++ sent acts⟩
  | bReceive (x : Sys F) (fr : Frame F) (rest : List (Frame F)) (acts : List (Act F))
      (v : View F) (hq : x.ab = fr :: rest) (h : Receive fr x.b.view acts v) :
      Step x ⟨x.a, ⟨v, x.b.hist.acts acts⟩, rest, x.ba ++ sent acts⟩
  | loseAB (x : Sys F) (q : List (Frame F)) (h : q.Sublist x.ab) : Step x ⟨x.a, x.b, q, x.ba⟩
  | loseBA (x : Sys F) (q : List (Frame F)) (h : q.Sublist x.ba) : Step x ⟨x.a, x.b, x.ab, q⟩

/-- Both endpoints after the handshake: nothing sent, the first payload will carry `true`. -/
def Side.start : Side F := ⟨⟨false, true, none⟩, Hist.empty⟩

def Sys.start : Sys F := ⟨Side.start, Side.start, [], []⟩

/-- What one end accepted is a prefix of what the other put on the wire, and an end
has discarded nothing its peer has not accepted. -/
def Safe (a b : Hist F) : Prop :=
  b.accepted <+: a.wire ∧ a.discarded <+: b.accepted ∧
  a.accepted <+: b.wire ∧ b.discarded <+: a.accepted

instance [DecidableEq F] (a b : Hist F) : Decidable (Safe a b) :=
  inferInstanceAs (Decidable (_ ∧ _ ∧ _ ∧ _))

/-! ## The invariant of one direction -/

/-- Data flows from `x` to `y` in `q`, acknowledgements flow back in `r`. The bits
tell the whole story: `x.s = y.e` while the outstanding payload is not accepted,
`x.s ≠ y.e` once it is. Data frames with the current bit come last in `q`, and frames
that acknowledge the current payload come last in `r`. -/
structure Dir (x y : Side F) (q r : List (Frame F)) : Prop where
  pending : x.view.s = y.view.e →
    ∃ f, x.view.cur = some f ∧ x.hist.started = y.hist.accepted ++ [f]
  settled : x.view.s ≠ y.view.e → x.hist.started = y.hist.accepted
  kept : ∀ f, x.view.cur = some f → x.hist.started = x.hist.discarded ++ [f]
  idle : x.view.cur = none → x.hist.started = x.hist.discarded
  onWire : (x.hist.wire = x.hist.started ∧
      (x.hist.wireS = some x.view.s ∨ x.hist.started = [] ∧ x.hist.wireS = none)) ∨
    (x.view.s = y.view.e ∧ x.hist.wireS ≠ some x.view.s ∧
      ∃ f, x.view.cur = some f ∧ x.hist.started = x.hist.wire ++ [f])
  current : ∀ fr ∈ q, ∀ f, fr.pay = some f → fr.s = x.view.s → x.view.s = y.view.e →
    x.view.cur = some f ∧ x.hist.wire = x.hist.started
  stale : x.view.s ≠ y.view.e → ∀ fr ∈ q, fr.pay ≠ none → fr.s = x.view.s
  order : q.Pairwise fun fr fr' =>
    fr.pay ≠ none → fr.s = x.view.s → fr'.pay ≠ none → fr'.s = x.view.s
  acks : x.view.cur = none ∨ x.view.s = y.view.e → ∀ fr ∈ r, fr.e = y.view.e
  ackOrder : r.Pairwise fun fr fr' => fr.e = y.view.e → fr'.e = y.view.e

namespace Dir

variable {x y : Side F} {q r : List (Frame F)}

theorem sublist_data (h : Dir x y q r) {q' : List (Frame F)} (hq : q'.Sublist q) :
    Dir x y q' r where
  pending := h.pending
  settled := h.settled
  kept := h.kept
  idle := h.idle
  onWire := h.onWire
  current := fun fr hfr => h.current fr (hq.subset hfr)
  stale := fun hne fr hfr => h.stale hne fr (hq.subset hfr)
  order := h.order.sublist hq
  acks := h.acks
  ackOrder := h.ackOrder

theorem sublist_acks (h : Dir x y q r) {r' : List (Frame F)} (hr : r'.Sublist r) :
    Dir x y q r' where
  pending := h.pending
  settled := h.settled
  kept := h.kept
  idle := h.idle
  onWire := h.onWire
  current := h.current
  stale := h.stale
  order := h.order
  acks := fun hc fr hfr => h.acks hc fr (hr.subset hfr)
  ackOrder := h.ackOrder.sublist hr

/-- An idle sender has nothing pending: the last payload was accepted. -/
theorem idle_ne (h : Dir x y q r) (hcur : x.view.cur = none) : x.view.s ≠ y.view.e := by
  intro hse
  obtain ⟨f, hf, _⟩ := h.pending hse
  rw [hcur] at hf
  cases hf

theorem sender_start (h : Dir x y q r) (f : F) (hcur : x.view.cur = none) :
    Dir ⟨⟨!x.view.s, x.view.e, some f⟩, x.hist.act (.start f)⟩ y q r := by
  have hne := h.idle_ne hcur
  have hse : (!x.view.s) = y.view.e := by
    cases hs : x.view.s <;> cases he : y.view.e <;> simp_all
  refine ⟨fun _ => ⟨f, rfl, ?_⟩, fun hc => absurd hse hc, ?_, by simp, ?_, ?_, ?_, ?_, ?_,
    h.ackOrder⟩
  · simp [Hist.act, h.settled hne]
  · intro g hg
    simp only [Option.some.injEq] at hg
    subst hg
    simp [Hist.act, h.idle hcur]
  · right
    refine ⟨hse, ?_, f, rfl, ?_⟩
    · rcases h.onWire with ⟨_, hw | hw⟩ | ⟨he, _⟩
      · simp [Hist.act, hw]
      · simp [Hist.act, hw.2]
      · exact absurd he hne
    · rcases h.onWire with ⟨hw, _⟩ | ⟨he, _⟩
      · simp [Hist.act, hw]
      · exact absurd he hne
  -- every data frame in flight still carries the old bit
  · intro fr hfr g hpay hs _
    have := h.stale hne fr hfr (by simp [hpay])
    simp [this] at hs
  · exact fun hc => absurd hse hc
  · refine h.order.imp_of_mem ?_
    intro fr fr' hfr _ _ hp hs
    have := h.stale hne fr hfr hp
    simp [this] at hs
  · exact fun _ => h.acks (.inl hcur)

theorem sender_send (h : Dir x y q r) (fr : Frame F) (hs : fr.s = x.view.s)
    (hpay : ∀ f, fr.pay = some f → x.view.cur = some f) :
    Dir ⟨x.view, x.hist.act (.send fr)⟩ y (q ++ [fr]) r := by
  obtain ⟨s, e, pay⟩ := fr
  have hord : (q ++ [Frame.mk s e pay]).Pairwise fun fr fr' =>
      fr.pay ≠ none → fr.s = x.view.s → fr'.pay ≠ none → fr'.s = x.view.s := by
    refine pairwise_append.mpr ⟨h.order, by simp, ?_⟩
    intro a _ b hb _ _ _
    simp only [mem_singleton] at hb
    subst hb
    exact hs
  cases pay with
  | none =>
    refine { h with current := ?_, stale := ?_, order := hord }
    · intro a ha f hf
      rcases mem_append.mp ha with ha | ha
      · exact h.current a ha f hf
      · simp only [mem_singleton] at ha
        subst ha
        cases hf
    · intro hne a ha hp
      rcases mem_append.mp ha with ha | ha
      · exact h.stale hne a ha hp
      · simp only [mem_singleton] at ha
        subst ha
        exact hs
  | some f =>
    have hcur := hpay f rfl
    simp only at hs
    subst hs
    -- the frame puts the outstanding payload on the wire unless it is there already
    have hwire : (x.hist.act (.send ⟨x.view.s, e, some f⟩)).wire = x.hist.started ∧
        (x.hist.act (.send ⟨x.view.s, e, some f⟩)).wireS = some x.view.s := by
      rcases h.onWire with ⟨hw, hb | ⟨hnil, _⟩⟩ | ⟨_, hb, g, hg, hst⟩
      · simp [Hist.act, hw, hb]
      · have := h.kept f hcur
        simp [hnil] at this
      · rw [hcur] at hg
        cases hg
        simp [Hist.act, hb, hst]
    have hfix : (x.hist.act (.send ⟨x.view.s, e, some f⟩)).started = x.hist.started ∧
        (x.hist.act (.send ⟨x.view.s, e, some f⟩)).discarded = x.hist.discarded := by
      by_cases hb : x.hist.wireS = some x.view.s <;> simp [Hist.act, hb]
    refine ⟨?_, ?_, ?_, ?_, .inl ⟨?_, .inl hwire.2⟩, ?_, ?_, hord, h.acks, h.ackOrder⟩
    · simpa only [hfix.1] using h.pending
    · simpa only [hfix.1] using h.settled
    · simpa only [hfix.1, hfix.2] using h.kept
    · simpa only [hfix.1, hfix.2] using h.idle
    · rw [hwire.1, hfix.1]
    · intro a ha g hg has hse
      refine ⟨?_, by rw [hwire.1, hfix.1]⟩
      rcases mem_append.mp ha with ha | ha
      · exact (h.current a ha g hg has hse).1
      · simp only [mem_singleton] at ha
        subst ha
        exact hpay g hg
    · intro hne a ha hp
      rcases mem_append.mp ha with ha | ha
      · exact h.stale hne a ha hp
      · simp only [mem_singleton] at ha
        subst ha
        rfl

variable {fr : Frame F} {acts : List (Act F)} {rest : List (Frame F)} {v : View F}

section

variable (h : Dir x y q r)
include h

theorem sender_discard
    (hr : r = fr :: rest) (f : F) (hcur : x.view.cur = some f) (he : fr.e ≠ x.view.s) :
    Dir ⟨⟨x.view.s, x.view.e, none⟩, x.hist.act (.discard f)⟩ y q rest := by
  subst hr
  -- a frame that no longer expects the payload was sent after its acceptance
  have hne : x.view.s ≠ y.view.e := by
    intro hse
    exact he (by rw [h.acks (.inr hse) fr (by simp), hse])
  have hfe : fr.e = y.view.e := by
    cases hs : x.view.s <;> cases h1 : fr.e <;> cases h2 : y.view.e <;> simp_all
  obtain ⟨hhead, htail⟩ := pairwise_cons.mp h.ackOrder
  refine ⟨fun hse => absurd hse hne, fun _ => h.settled hne, by simp, ?_, ?_, ?_, h.stale,
    h.order, ?_, htail⟩
  · simpa [Hist.act] using h.kept f hcur
  · rcases h.onWire with hw | ⟨hse, _⟩
    · exact .inl hw
    · exact absurd hse hne
  · intro a ha g hg has hse
    exact absurd hse hne
  · intro _ a ha
    exact hhead a ha hfe

theorem receiver_accept
    (hq : q = fr :: rest) (f : F) (hpay : fr.pay = some f) (hs : fr.s = y.view.e) :
    Dir x ⟨⟨y.view.s, !y.view.e, y.view.cur⟩, y.hist.act (.accept f)⟩ rest r := by
  subst hq
  have hse : x.view.s = y.view.e := Decidable.byContradiction fun hne =>
    hne (by rw [← h.stale hne fr (by simp) (by simp [hpay]), hs])
  obtain ⟨hcur, hwire⟩ := h.current fr (by simp) f hpay (by rw [hs, hse]) hse
  obtain ⟨g, hg, hst⟩ := h.pending hse
  rw [hcur] at hg
  cases hg
  have hne : x.view.s ≠ !y.view.e := by rw [hse]; cases y.view.e <;> decide
  obtain ⟨hhead, htail⟩ := pairwise_cons.mp h.order
  refine ⟨fun hc => absurd hc hne, fun _ => by simpa [Hist.act] using hst, h.kept, h.idle, ?_,
    fun _ _ _ _ _ hc => absurd hc hne, ?_, htail, ?_, ?_⟩
  · rcases h.onWire with hw | ⟨_, _, g, hg, hw⟩
    · exact .inl hw
    · simp [hwire] at hw
  · intro _ a ha hp
    exact hhead a ha (by simp [hpay]) (by rw [hs, hse]) hp
  · rintro (hc | hc)
    · rw [hcur] at hc
      cases hc
    · exact absurd hc hne
  · refine h.ackOrder.imp_of_mem ?_
    intro a b ha _ _ hae
    have := h.acks (.inr hse) a ha
    simp [this] at hae

theorem receiver_send (fr : Frame F) (he : fr.e = y.view.e) :
    Dir x ⟨y.view, y.hist.act (.send fr)⟩ q (r ++ [fr]) := by
  have hacc : (y.hist.act (.send fr)).accepted = y.hist.accepted := by
    obtain ⟨s, e, pay⟩ := fr
    cases pay with
    | none => rfl
    | some f => by_cases hb : y.hist.wireS = some s <;> simp [Hist.act, hb]
  refine { h with pending := ?_, settled := ?_, acks := ?_, ackOrder := ?_ }
  · simpa only [hacc] using h.pending
  · simpa only [hacc] using h.settled
  · intro hc a ha
    rcases mem_append.mp ha with ha | ha
    · exact h.acks hc a ha
    · simp only [mem_singleton] at ha
      subst ha
      exact he
  · refine pairwise_append.mpr ⟨h.ackOrder, by simp, ?_⟩
    intro a _ b hb _
    simp only [mem_singleton] at hb
    subst hb
    exact he

/-- What the receiver does with its own payloads is invisible in this direction. -/
theorem congr_receiver {y' : Side F} (he : y'.view.e = y.view.e)
    (ha : y'.hist.accepted = y.hist.accepted) : Dir x y' q r := by
  refine ⟨?_, ?_, h.kept, h.idle, ?_, ?_, ?_, h.order, ?_, ?_⟩
  · rw [he, ha]; exact h.pending
  · rw [he, ha]; exact h.settled
  · rw [he]; exact h.onWire
  · rw [he]; exact h.current
  · rw [he]; exact h.stale
  · rw [he]; exact h.acks
  · rw [he]; exact h.ackOrder

/-- What the sender accepts is invisible in this direction. -/
theorem congr_sender {x' : Side F} (hs : x'.view.s = x.view.s)
    (hc : x'.view.cur = x.view.cur) (h1 : x'.hist.started = x.hist.started)
    (h2 : x'.hist.discarded = x.hist.discarded) (h3 : x'.hist.wire = x.hist.wire)
    (h4 : x'.hist.wireS = x.hist.wireS) : Dir x' y q r := by
  refine ⟨?_, ?_, ?_, ?_, ?_, ?_, ?_, ?_, ?_, h.ackOrder⟩
  · rw [hs, hc, h1]; exact h.pending
  · rw [hs, h1]; exact h.settled
  · rw [hc, h1, h2]; exact h.kept
  · rw [hc, h1, h2]; exact h.idle
  · rw [hs, hc, h1, h3, h4]; exact h.onWire
  · rw [hs, hc, h1, h3]; exact h.current
  · rw [hs]; exact h.stale
  · rw [hs]; exact h.order
  · rw [hs, hc]; exact h.acks

/-- The sender goes on locally: its frames join the data queue. -/
theorem sender_local
    (hl : Local x.view acts v) : Dir ⟨v, x.hist.acts acts⟩ y (q ++ sent acts) r := by
  obtain ⟨u, hist⟩ := x
  simp only at hl
  induction hl generalizing hist q with
  | nil u => simpa [Hist.acts, sent] using h
  | start f hcur _ ih => simpa [Hist.acts, sent] using ih _ (h.sender_start f hcur)
  | send fr hs he hpay _ ih =>
    simpa [Hist.acts, sent, append_assoc] using ih _ (h.sender_send fr hs hpay)

/-- The receiver goes on locally: its frames join the acknowledgement queue. -/
theorem receiver_local
    (hl : Local y.view acts v) : Dir x ⟨v, y.hist.acts acts⟩ q (r ++ sent acts) := by
  obtain ⟨u, hist⟩ := y
  simp only at hl
  induction hl generalizing hist r with
  | nil u => simpa [Hist.acts, sent] using h
  | start f hcur _ ih =>
    simpa [Hist.acts, sent] using ih (hist.act (.start f)) (h.congr_receiver rfl rfl)
  | send fr hs he hpay _ ih =>
    simpa [Hist.acts, sent, append_assoc] using ih _ (h.receiver_send fr he)

theorem sender_accept (ha : Accept fr x.view acts v) : Dir ⟨v, x.hist.acts acts⟩ y q r := by
  obtain ⟨u, hist⟩ := x
  cases ha with
  | skip => exact h
  | take f => exact h.congr_sender rfl rfl rfl rfl rfl rfl

theorem receiver_discard (hd : Discard fr y.view acts v) : Dir x ⟨v, y.hist.acts acts⟩ q r := by
  obtain ⟨u, hist⟩ := y
  cases hd with
  | keep => exact h
  | drop f => exact h.congr_receiver rfl rfl

omit h in
/-- The sender handles the head of the acknowledgement queue. -/
theorem sender_receive (h : Dir x y q (fr :: rest)) (hrec : Receive fr x.view acts v) :
    Dir ⟨v, x.hist.acts acts⟩ y (q ++ sent acts) rest := by
  obtain ⟨v₁, v₂, as, ds, ls, rfl, ha, hd, hl⟩ := hrec
  have h₁ := h.sender_accept ha
  have h₂ : Dir ⟨v₂, (x.hist.acts as).acts ds⟩ y q rest := by
    cases hd with
    | keep => exact h₁.sublist_acks (sublist_cons_self fr rest)
    | drop f hcur he => exact h₁.sender_discard rfl f hcur he
  rw [sent_accept_discard ha hd]
  simpa [Hist.acts, foldl_append] using h₂.sender_local hl

omit h in
/-- The receiver handles the head of the data queue. -/
theorem receiver_receive (h : Dir x y (fr :: rest) r) (hrec : Receive fr y.view acts v) :
    Dir x ⟨v, y.hist.acts acts⟩ rest (r ++ sent acts) := by
  obtain ⟨v₁, v₂, as, ds, ls, rfl, ha, hd, hl⟩ := hrec
  have h₁ : Dir x ⟨v₁, y.hist.acts as⟩ rest r := by
    cases ha with
    | skip => exact h.sublist_data (sublist_cons_self fr rest)
    | take f hpay hs => exact h.receiver_accept rfl f hpay hs
  have h₂ := h₁.receiver_discard hd
  rw [sent_accept_discard ha hd]
  simpa [Hist.acts, foldl_append] using h₂.receiver_local hl

theorem accepted_onWire : y.hist.accepted <+: x.hist.wire := by
  rcases h.onWire with ⟨hw, _⟩ | ⟨hse, _, f, hf, hst⟩
  · rw [hw]
    by_cases hse : x.view.s = y.view.e
    · obtain ⟨f, _, hst⟩ := h.pending hse
      exact ⟨[f], hst.symm⟩
    · simp only [h.settled hse, prefix_refl]
  · obtain ⟨g, _, hacc⟩ := h.pending hse
    have : y.hist.accepted = x.hist.wire := by
      have := hacc.symm.trans hst
      exact (append_inj' this rfl).1
    simp only [this, prefix_refl]

theorem discarded_accepted : x.hist.discarded <+: y.hist.accepted := by
  by_cases hse : x.view.s = y.view.e
  · obtain ⟨f, hcur, hst⟩ := h.pending hse
    have := (h.kept f hcur).symm.trans hst
    simp only [(append_inj' this rfl).1, prefix_refl]
  · rw [← h.settled hse]
    cases hcur : x.view.cur with
    | none => simp only [h.idle hcur, prefix_refl]
    | some f => exact ⟨[f], (h.kept f hcur).symm⟩

end

end Dir

/-! ## The pair of endpoints -/

def Sys.Inv (x : Sys F) : Prop := Dir x.a x.b x.ab x.ba ∧ Dir x.b x.a x.ba x.ab

theorem Sys.Inv.safe {x : Sys F} (h : x.Inv) : Safe x.a.hist x.b.hist :=
  ⟨h.1.accepted_onWire, h.1.discarded_accepted, h.2.accepted_onWire, h.2.discarded_accepted⟩

theorem Dir.start : Dir (Side.start : Side F) Side.start [] [] := by
  constructor <;> simp [Side.start, Hist.empty]

theorem Sys.inv_start : (Sys.start : Sys F).Inv := ⟨Dir.start, Dir.start⟩

theorem Sys.Inv.step {x x' : Sys F} (h : x.Inv) (hs : Step x x') : x'.Inv := by
  obtain ⟨h₁, h₂⟩ := h
  cases hs with
  | aLocal acts v hl => exact ⟨h₁.sender_local hl, h₂.receiver_local hl⟩
  | aReceive fr rest acts v hq hr =>
    rw [hq] at h₁ h₂
    exact ⟨h₁.sender_receive hr, h₂.receiver_receive hr⟩
  | bLocal acts v hl => exact ⟨h₁.receiver_local hl, h₂.sender_local hl⟩
  | bReceive fr rest acts v hq hr =>
    rw [hq] at h₁ h₂
    exact ⟨h₁.receiver_receive hr, h₂.sender_receive hr⟩
  | loseAB q hq => exact ⟨h₁.sublist_data hq, h₂.sublist_acks hq⟩
  | loseBA q hq => exact ⟨h₁.sublist_acks hq, h₂.sublist_data hq⟩

/-- Along every run of the pair, whatever is lost, nothing is skipped, duplicated or
reordered, and nothing is discarded early. -/
theorem Sys.safe_of_reachable {x : Sys F} (h : Relation.ReflTransGen Step Sys.start x) :
    Safe x.a.hist x.b.hist := by
  have hinv : x.Inv := by
    induction h with
    | refl => exact Sys.inv_start
    | tail _ hs ih => exact ih.step hs
  exact hinv.safe

end Mios.Lib.AltBit
