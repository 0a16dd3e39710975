import Mathlib.Data.List.Count
import Mathlib.Data.List.Sort

/-! Searches in a list that stands for an array or a linked list: the element that is found
splits the list, and a change of it is seen through the parts. -/

namespace Mios.Lib.Lists

open List

variable {α β : Type}

/-- The element a search stops at, and the ones it passed. -/
theorem split_of_findIdx {xs : List α} {p : α → Bool} {i : Nat} (h : xs.findIdx? p = some i) :
    ∃ l x r, xs = l ++ x :: r ∧ l.length = i ∧ p x = true ∧ ∀ y ∈ l, p y = false := by
  obtain ⟨hi, hp, hbefore⟩ := List.findIdx?_eq_some_iff_getElem.mp h
  refine ⟨xs.take i, xs[i], xs.drop (i + 1), ?_, ?_, hp, fun y hy => ?_⟩
  · rw [← drop_eq_getElem_cons hi, take_append_drop]
  · rw [length_take, Nat.min_eq_left hi.le]
  · obtain ⟨j, hj, rfl⟩ := mem_take_iff_getElem.mp hy
    exact Bool.eq_false_iff.mpr (hbefore j (by omega))

theorem set_middle (l : List α) (x y : α) (r : List α) :
    (l ++ x :: r).set l.length y = l ++ y :: r := by
  rw [set_append_right _ _ le_rfl, Nat.sub_self, set_cons_zero]

theorem getD_middle (l : List α) (x d : α) (r : List α) : (l ++ x :: r).getD l.length d = x := by
  simp

/-- A property of all elements stays when one of them is replaced. -/
theorem forall_middle {P : α → Prop} {x y : α} {l r : List α} (h : ∀ z ∈ l ++ x :: r, P z)
    (hy : P y) : ∀ z ∈ l ++ y :: r, P z := by
  rw [forall_mem_append, forall_mem_cons] at h ⊢
  exact ⟨h.1, hy, h.2.2⟩

theorem filterMap_cons_toList (f : α → Option β) (x : α) (xs : List α) :
    (x :: xs).filterMap f = (f x).toList ++ xs.filterMap f := by
  cases h : f x <;> simp [h]

/-- If each element gives its value to one of two lists, so do all of them together. -/
theorem count_filterMap_add [BEq β] {f g h : α → Option β} {b : β}
    (hone : ∀ x, (f x).toList.count b = (g x).toList.count b + (h x).toList.count b) (xs : List α) :
    (xs.filterMap f).count b = (xs.filterMap g).count b + (xs.filterMap h).count b := by
  induction xs with
  | nil => rfl
  | cons x xs ih =>
    simp only [filterMap_cons_toList, count_append, hone x, ih]
    omega

section Insert

variable {r : α → α → Prop} [DecidableRel r] {x : α}

/-- An insertion goes past elements that it does not come before. -/
theorem orderedInsert_append {l : List α} (h : ∀ y ∈ l, ¬r x y) (l' : List α) :
    (l ++ l').orderedInsert r x = l ++ l'.orderedInsert r x := by
  induction l with
  | nil => rfl
  | cons y l ih =>
    rw [cons_append, orderedInsert_of_not_le _ _ (h y (.head _)), cons_append,
      ih fun z hz => h z (mem_cons_of_mem y hz)]

/-- An insertion keeps an order that decides for the new element as the search does. -/
theorem pairwise_orderedInsert {R : α → α → Prop} {l : List α} (h : l.Pairwise R)
    (hbefore : ∀ y ∈ l, r x y → R x y) (hafter : ∀ y ∈ l, ¬r x y → R y x)
    (htrans : ∀ y ∈ l, ∀ z ∈ l, r x y → R y z → r x z) : (l.orderedInsert r x).Pairwise R := by
  induction l with
  | nil => exact pairwise_singleton R x
  | cons y l ih =>
    obtain ⟨hy, hl⟩ := pairwise_cons.mp h
    by_cases hxy : r x y
    · rw [orderedInsert_cons_of_le _ _ hxy]
      refine pairwise_cons.mpr ⟨fun z hz => hbefore z hz ?_, h⟩
      rcases mem_cons.mp hz with rfl | hz
      · exact hxy
      · exact htrans y (.head _) z (mem_cons_of_mem y hz) hxy (hy z hz)
    · rw [orderedInsert_of_not_le _ _ hxy]
      refine pairwise_cons.mpr ⟨fun z hz => ?_, ih hl
        (fun z hz => hbefore z (mem_cons_of_mem y hz))
        (fun z hz => hafter z (mem_cons_of_mem y hz))
        fun a ha b hb => htrans a (mem_cons_of_mem y ha) b (mem_cons_of_mem y hb)⟩
      rcases mem_cons.mp ((perm_orderedInsert r x l).mem_iff.mp hz) with rfl | hz
      · exact hafter y (.head _) hxy
      · exact hy z hz

end Insert

end Mios.Lib.Lists
