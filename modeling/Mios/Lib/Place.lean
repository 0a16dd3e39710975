import Mathlib.Data.List.Nodup

/-! Queues that share their elements: `q p` is the queue at place `p`, and `loc x` says at
which place `x` is, if at any. `Placed` says that the queues agree with `loc`, so that no
element is on two queues, or twice on one. -/

namespace Mios.Lib.Place

variable {α π : Type} {q : π → List α} {loc : α → Option π} {x : α} {p p' : π}

structure Placed (q : π → List α) (loc : α → Option π) : Prop where
  mem : ∀ x p, x ∈ q p ↔ loc x = some p
  nodup : ∀ p, (q p).Nodup

namespace Placed

theorem unique (h : Placed q loc) (hp : x ∈ q p) (hp' : x ∈ q p') : p = p' := by
  have hloc := (h.mem x p).mp hp
  have hloc' := (h.mem x p').mp hp'
  exact Option.some.inj (hloc.symm.trans hloc')

theorem notMem (h : Placed q loc) (hx : loc x = none) (p : π) : x ∉ q p := by
  intro hmem
  rw [(h.mem x p).mp hmem] at hx
  cases hx

variable [DecidableEq α] [DecidableEq π]

section

variable (h : Placed q loc)
include h

/-- An element moves between nowhere and one queue. -/
theorem change {o : Option π} {l : List α}
    (hmem : ∀ y, y ∈ l ↔ Function.update loc x o y = some p) (hl : l.Nodup)
    (hx : ∀ p', p' ≠ p → loc x ≠ some p' ∧ o ≠ some p') :
    Placed (Function.update q p l) (Function.update loc x o) := by
  constructor
  · intro y p'
    by_cases hp : p' = p
    · subst hp
      rw [Function.update_self]
      exact hmem y
    · rw [Function.update_of_ne hp, h.mem]
      by_cases hy : y = x
      · subst hy
        simp [hx p' hp]
      · rw [Function.update_of_ne hy]
  · intro p'
    by_cases hp : p' = p
    · subst hp
      rwa [Function.update_self]
    · rw [Function.update_of_ne hp]
      exact h.nodup p'

/-- An element that is nowhere is put on one queue, at whatever position. -/
theorem insert (hx : loc x = none) {l : List α} (hl : l.Perm (x :: q p)) :
    Placed (Function.update q p l) (Function.update loc x (some p)) := by
  refine h.change (fun y => ?_) ?_ fun p' hp => ⟨by simp [hx], by simpa using Ne.symm hp⟩
  · rw [hl.mem_iff, List.mem_cons]
    by_cases hy : y = x
    · simp [hy]
    · simp [hy, h.mem]
  · rw [hl.nodup_iff, List.nodup_cons]
    exact ⟨h.notMem hx p, h.nodup p⟩

theorem append (hx : loc x = none) :
    Placed (Function.update q p (q p ++ [x])) (Function.update loc x (some p)) :=
  h.insert hx List.perm_append_comm

theorem erase (hx : loc x = some p) :
    Placed (Function.update q p ((q p).erase x)) (Function.update loc x none) := by
  refine h.change (fun y => ?_) ((h.nodup p).erase x) fun p' hp => ⟨?_, by simp⟩
  · rw [(h.nodup p).mem_erase_iff]
    by_cases hy : y = x
    · simp [hy]
    · simp [hy, h.mem]
  · simpa [hx] using Ne.symm hp

/-- The first of a queue leaves it. -/
theorem tail {rest : List α} (hq : q p = x :: rest) :
    Placed (Function.update q p rest) (Function.update loc x none) := by
  have hx : loc x = some p := (h.mem x p).mp (hq ▸ List.mem_cons_self)
  have herase := h.erase hx
  rwa [hq, List.erase_cons_head] at herase

end

end Placed

end Mios.Lib.Place
