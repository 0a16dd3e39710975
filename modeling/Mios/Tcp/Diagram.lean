import Mios.Tcp.Send

/-! The state diagram of RFC 9293, as far as a connection of `tcp.c` goes along it. -/

namespace Mios.Tcp

open Lib Relation

/-- Where a state leads to, besides `CLOSED`. Out of `CLOSING` the diagram has `TIME_WAIT`. -/
def nextStates : State → List State
  | .synSent => [.synReceived, .established]
  | .synReceived => [.established, .finWait1]
  | .established => [.finWait1, .closeWait]
  | .finWait1 => [.finWait2, .closing, .timeWait]
  | .finWait2 => [.timeWait]
  | .closing => [.finWait2]
  | .closeWait => [.lastAck]
  | .closed | .listen | .timeWait | .lastAck => []

abbrev Arrow (s s' : State) : Prop := s' = s ∨ s' = .closed ∨ s' ∈ nextStates s

variable {e : Event} {t t' : Tcb} {out : List Sent} {c c' c0 : Conn} {es : List Event}

theorem Follows.arrow {s s' : State} (h : Follows s s') : Arrow s s' := by
  cases h <;> simp [Arrow, nextStates]

theorem Move.arrow (h : Move [] e t out t') : Arrow t.state t'.state := by
  cases h with
  | other h => exact h.sameTx.follows.arrow
  | simultaneous _ _ hs ht _ _ _ _ hack =>
    rw [ht, hs]
    simp only [synInSynSent, if_neg hack]
    split
    · rw [(tcpEmit_onlyNxt _ _ _ _).state]
      exact (by decide : Arrow .synSent .established)
    · exact (by decide : Arrow .synSent .synReceived)
  | tooNew _ _ hs => exact hs ▸ (by decide : Arrow .synReceived .established)
  | queueFin _ hs =>
    rcases hs with ⟨hs | hs, rfl⟩ | ⟨hs, rfl⟩
    · exact hs ▸ (by decide : Arrow .established .finWait1)
    · exact hs ▸ (by decide : Arrow .synReceived .finWait1)
    · exact hs ▸ (by decide : Arrow .closeWait .lastAck)
  | _ => exact .inl rfl

theorem Micro.arrow (h : Micro [] e c c') : Arrow c.tcb.state c'.tcb.state := by
  cases h with
  | move h => exact h.arrow
  | hear => exact .inl rfl
  | app _ h => exact .inl h.state
  | synAck _ _ hs => exact hs ▸ (by decide : Arrow .synSent .established)
  | @establish g _ _ _ hs =>
    have hstate : (Tcp.establish c.tcb g).state = .established := (establish_frame c.tcb g).state
    exact hs ▸ hstate.symm ▸ (by decide : Arrow .synReceived .established)
  | acked => exact .inl (ackWindow_frame c.tcb _).state

theorem eq_closed_of_path {s : State} (h : ReflTransGen Arrow .closed s) : s = .closed := by
  induction h with
  | refl => rfl
  | tail _ hs ih =>
    subst ih
    simpa [Arrow, nextStates] using hs

/-- From every state of every run the states go along the arrows, and `CLOSED` is never left. -/
theorem states_along_arrows (hinit : Conn.Init c0) (hrun : Run Conn.Step c0 es c) :
    ∀ es' d, Run Conn.Step c es' d → ReflTransGen Arrow c.tcb.state d.tcb.state ∧
      (c.tcb.state = .closed → d.tcb.state = .closed) := by
  have hguard {c d : Conn} {es : List Event} (h : Run Conn.Step c es d) :
      Run (Guarded (fun c e => Regular [] c.tcb e) Conn.Step) c es d :=
    h.mono fun u e _ hs => ⟨regular_nil u.tcb e, hs⟩
  intro es' d hrun'
  have hpath : ReflTransGen Arrow c.tcb.state d.tcb.state :=
    invariant_of_micro (I := fun d => ReflTransGen Arrow c.tcb.state d.tcb.state)
      (fun _ _ _ h hm => h.tail hm.arrow) (by simp) (hguard hrun')
      (dormant_of_run (hguard hrun) hinit.dormant) .refl
  exact ⟨hpath, fun hc => eq_closed_of_path (hc ▸ hpath)⟩

theorem resent_along_arrows : ∃ c0 c, Conn.Init c0 ∧ Run Conn.Step c0 resent c ∧
    c.tcb.state = .established ∧ ∀ es d, Run Conn.Step c es d →
      ReflTransGen Arrow .established d.tcb.state := by
  obtain ⟨c0, c, hinit, hrun, hs⟩ : ∃ c0 c, Conn.Init c0 ∧ Run Conn.Step c0 resent c ∧
      c.tcb.state = .established := run_of_opened size4096 size2048 100 500 (by decide +kernel)
  exact ⟨c0, c, hinit, hrun, hs, fun es d h => hs ▸ (states_along_arrows hinit hrun es d h).1⟩

end Mios.Tcp
