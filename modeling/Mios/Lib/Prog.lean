import Mathlib.Logic.Basic

/-! Programs that call an interface. A layer of a system serves the calls of the layer above
by a program of calls on the layer below; what such a program may call, whatever it is
answered, carries over from layer to layer. -/

namespace Mios.Lib

/-- A program ends with a result, or makes a call and goes on with the answer. -/
inductive Prog (κ ρ α : Type) where
  | done (a : α)
  | call (c : κ) (next : ρ → Prog κ ρ α)

namespace Prog

variable {κ ρ κ' ρ' α β : Type}

def bind : Prog κ ρ α → (α → Prog κ ρ β) → Prog κ ρ β
  | done a, f => f a
  | call c next, f => call c fun r => (next r).bind f

/-- Serve each call by a program over the interface below. -/
def through (h : κ → Prog κ' ρ' ρ) : Prog κ ρ α → Prog κ' ρ' α
  | done a => done a
  | call c next => (h c).bind fun r => (next r).through h

/-- The calls that the program makes and what it returns, if these are all the answers it needs. -/
def feed : Prog κ ρ α → List ρ → Option (List κ × α)
  | done a, [] => some ([], a)
  | done _, _ :: _ => none
  | call _ _, [] => none
  | call c next, r :: rs => ((next r).feed rs).map fun x => (c :: x.1, x.2)

/-- Whatever it is answered, the program makes only calls in `P`, and its result is in `R`. -/
def Meets (P : κ → Prop) (R : α → Prop) : Prog κ ρ α → Prop
  | done a => R a
  | call c next => P c ∧ ∀ r, (next r).Meets P R

def Only (P : κ → Prop) (p : Prog κ ρ α) : Prop := p.Meets P fun _ => True

theorem of_feed_done {a b : α} {rs : List ρ} {cs : List κ}
    (h : (done a).feed rs = some (cs, b)) : rs = [] ∧ cs = [] ∧ a = b := by
  cases rs with
  | nil =>
    cases h
    exact ⟨rfl, rfl, rfl⟩
  | cons r rs => cases h

theorem of_feed_call {c : κ} {next : ρ → Prog κ ρ α} {rs : List ρ} {cs : List κ} {a : α}
    (h : (call c next).feed rs = some (cs, a)) :
    ∃ r rs' cs', rs = r :: rs' ∧ cs = c :: cs' ∧ (next r).feed rs' = some (cs', a) := by
  cases rs with
  | nil => cases h
  | cons r rs =>
    obtain ⟨x, hx, heq⟩ := Option.map_eq_some_iff.mp h
    cases heq
    exact ⟨r, rs, x.1, rfl, rfl, hx⟩

variable {P Q : κ → Prop} {R : α → Prop} {p q : Prog κ ρ α} {f : α → Prog κ ρ β}

theorem Meets.mono {S : α → Prop} (h : p.Meets P R)
    (hPQ : ∀ c, P c → Q c) (hRS : ∀ a, R a → S a) : p.Meets Q S := by
  induction p with
  | done a => exact hRS a h
  | call c next ih => exact ⟨hPQ c h.1, fun r => ih r (h.2 r)⟩

theorem Only.mono (h : p.Only P) (hPQ : ∀ c, P c → Q c) :
    p.Only Q := Meets.mono h hPQ fun _ _ => trivial

theorem only_ite {b : Prop} [Decidable b] (hp : b → p.Only P)
    (hq : ¬b → q.Only P) : (if b then p else q).Only P := by
  split
  · exact hp ‹_›
  · exact hq ‹_›

theorem Meets.bind {S : β → Prop} (h : p.Meets P R) (hf : ∀ a, R a → (f a).Meets P S) :
    (p.bind f).Meets P S := by
  induction p with
  | done a => exact hf a h
  | call c next ih => exact ⟨h.1, fun r => ih r (h.2 r)⟩

theorem Only.bind (h : p.Only P)
    (hf : ∀ a, (f a).Only P) : (p.bind f).Only P := Meets.bind h fun a _ => hf a

theorem Only.of_bind (h : (p.bind f).Only P) : p.Only P := by
  induction p with
  | done a => trivial
  | call c next ih => exact ⟨h.1, fun r => ih r (h.2 r)⟩

/-- Layers compose: what is called below is what the layer calls for calls in `P`. -/
theorem Only.through {Q : κ' → Prop} {h : κ → Prog κ' ρ' ρ}
    (hp : p.Only P) (hh : ∀ c, P c → (h c).Only Q) : (p.through h).Only Q := by
  induction p with
  | done a => trivial
  | call c next ih => exact (hh c hp.1).bind fun r => ih r (hp.2 r)

end Prog

end Mios.Lib
