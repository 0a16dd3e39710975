import Mathlib.Logic.Basic

/-! Loops of which it is not known that they end. One round goes on with a new state or ends with
a result; a loop returns if some number of rounds is enough, and it diverges if none is. -/

namespace Mios.Lib

inductive Round (σ ρ : Type) where
  | next (s : σ)
  | done (r : ρ)

variable {σ ρ : Type}

/-- The result of at most `fuel` rounds. -/
def loop (round : σ → Round σ ρ) : Nat → σ → Option ρ
  | 0, _ => none
  | fuel + 1, s =>
    match round s with
    | .next t => loop round fuel t
    | .done r => some r

def Returns (round : σ → Round σ ρ) (s : σ) (r : ρ) : Prop := ∃ fuel, loop round fuel s = some r

def Diverges (round : σ → Round σ ρ) (s : σ) : Prop := ∀ fuel, loop round fuel s = none

variable {round : σ → Round σ ρ} {s t : σ} {r : ρ}

theorem loop_next (h : round s = .next t) (fuel : Nat) :
    loop round (fuel + 1) s = loop round fuel t := by
  rw [loop, h]

theorem loop_done (h : round s = .done r) (fuel : Nat) : loop round (fuel + 1) s = some r := by
  rw [loop, h]

theorem Returns.of_done {r' : ρ} (h : round s = .done r') (hs : Returns round s r) : r = r' := by
  obtain ⟨fuel, hfuel⟩ := hs
  cases fuel with
  | zero => cases hfuel
  | succ fuel => exact (Option.some.inj ((loop_done h fuel).symm.trans hfuel)).symm

theorem Returns.of_next (h : round s = .next t) (hs : Returns round s r) : Returns round t r := by
  obtain ⟨fuel, hfuel⟩ := hs
  cases fuel with
  | zero => cases hfuel
  | succ fuel => exact ⟨fuel, (loop_next h fuel).symm.trans hfuel⟩

theorem Diverges.next (h : round s = .next t) (ht : Diverges round t) : Diverges round s := by
  intro fuel
  cases fuel with
  | zero => rfl
  | succ fuel => exact (loop_next h fuel).trans (ht fuel)

section

variable {I : σ → Prop} {Q : ρ → Prop} (m : σ → Nat)
  (hdone : ∀ s r, I s → round s = .done r → Q r)
  (hnext : ∀ s t, I s → round s = .next t → I t ∧ m t < m s) (hs : I s)
include hdone hnext hs

/-- If each round that goes on keeps the invariant and makes the measure smaller, as many rounds as
the measure says and one more are enough. -/
theorem exists_loop {fuel : Nat} (hfuel : m s < fuel) : ∃ r, loop round fuel s = some r ∧ Q r := by
  induction fuel generalizing s with
  | zero => exact absurd hfuel (Nat.not_lt_zero _)
  | succ fuel ih =>
    cases hr : round s with
    | done r => exact ⟨r, loop_done hr fuel, hdone s r hs hr⟩
    | next t =>
      obtain ⟨ht, hlt⟩ := hnext s t hs hr
      rw [loop_next hr]
      exact ih ht (Nat.lt_of_lt_of_le hlt (Nat.le_of_lt_succ hfuel))

theorem exists_returns : ∃ r, Returns round s r ∧ Q r := by
  obtain ⟨r, hr, hq⟩ := exists_loop m hdone hnext hs (Nat.lt_succ_self (m s))
  exact ⟨r, ⟨_, hr⟩, hq⟩

end

/-- A loop diverges if there is an invariant under which every round goes on. -/
theorem diverges_of_invariant {I : σ → Prop} (h : ∀ s, I s → ∃ t, round s = .next t ∧ I t)
    (hs : I s) : Diverges round s := by
  intro fuel
  induction fuel generalizing s with
  | zero => rfl
  | succ fuel ih =>
    obtain ⟨t, hr, ht⟩ := h s hs
    exact (loop_next hr fuel).trans (ih ht)

end Mios.Lib
