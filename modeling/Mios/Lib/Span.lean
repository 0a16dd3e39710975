import Mathlib.Data.List.Basic

/-! Maps from numbers to values as lists of spans. A list in order is the map that its `lookup`
says: cutting a span in two or joining two that touch leaves the map, and a new value for
a span is an update of it. -/

namespace Mios.Lib

open List

/-- The numbers from `lo` up to but not including `hi` have the value `val`. -/
structure Span (α : Type) where
  lo : Nat
  hi : Nat
  val : α
  deriving DecidableEq, Repr

namespace Span

variable {α : Type}

abbrev Has (s : Span α) (x : Nat) : Prop := s.lo ≤ x ∧ x < s.hi

def lookup (l : List (Span α)) (x : Nat) : Option α := (l.find? fun s => s.Has x).map val

/-- The map with a new value between `lo` and `hi`. -/
def update (m : Nat → Option α) (lo hi : Nat) (v : α) : Nat → Option α :=
  fun x => if lo ≤ x ∧ x < hi then some v else m x

/-- No span is empty, and each ends before the ones behind it start. -/
structure Ordered (l : List (Span α)) : Prop where
  pos : ∀ s ∈ l, s.lo < s.hi
  apart : l.Pairwise fun s t => s.hi ≤ t.lo

variable {l r : List (Span α)} {s t : Span α} {x : Nat}

@[simp] theorem lookup_nil : lookup ([] : List (Span α)) x = none := rfl

theorem lookup_cons : lookup (s :: l) x = if s.Has x then some s.val else lookup l x := by
  unfold lookup
  by_cases h : s.Has x
  · simp [List.find?, h]
  · simp [List.find?, h]

theorem lookup_append : lookup (l ++ r) x = (lookup l x).or (lookup r x) := by
  unfold lookup
  rw [List.find?_append]
  cases l.find? fun s => s.Has x <;> rfl

theorem lookup_eq_none (h : ∀ s ∈ l, ¬s.Has x) : lookup l x = none := by
  unfold lookup
  rw [Option.map_eq_none_iff, List.find?_eq_none]
  exact fun s hs => by simpa using h s hs

theorem lookup_congr {l' r' : List (Span α)} (h : lookup l x = lookup l' x)
    (h' : lookup r x = lookup r' x) : lookup (l ++ r) x = lookup (l' ++ r') x := by
  rw [lookup_append, lookup_append, h, h']

/-- Two spans of one value that touch are one span. -/
theorem lookup_join {lo mid hi : Nat} {v : α} (h : lo ≤ mid) (h' : mid ≤ hi) :
    lookup (l ++ ⟨lo, mid, v⟩ :: ⟨mid, hi, v⟩ :: r) x = lookup (l ++ ⟨lo, hi, v⟩ :: r) x := by
  refine lookup_congr rfl ?_
  simp only [lookup_cons]
  by_cases h₁ : lo ≤ x ∧ x < mid
  · rw [if_pos h₁, if_pos (show lo ≤ x ∧ x < hi by omega)]
  · rw [if_neg h₁]
    by_cases h₂ : mid ≤ x ∧ x < hi
    · rw [if_pos h₂, if_pos (show lo ≤ x ∧ x < hi by omega)]
    · rw [if_neg h₂, if_neg (show ¬(lo ≤ x ∧ x < hi) by omega)]

theorem ordered_append : Ordered (l ++ r) ↔
    Ordered l ∧ Ordered r ∧ ∀ s ∈ l, ∀ t ∈ r, s.hi ≤ t.lo := by
  constructor
  · rintro ⟨hpos, hapart⟩
    obtain ⟨hl, hr, hlr⟩ := pairwise_append.mp hapart
    exact ⟨⟨fun s hs => hpos s (mem_append_left _ hs), hl⟩,
      ⟨fun s hs => hpos s (mem_append_right _ hs), hr⟩, hlr⟩
  · rintro ⟨hl, hr, hlr⟩
    refine ⟨fun s hs => ?_, pairwise_append.mpr ⟨hl.apart, hr.apart, hlr⟩⟩
    rcases mem_append.mp hs with hs | hs
    · exact hl.pos s hs
    · exact hr.pos s hs

theorem ordered_cons : Ordered (s :: r) ↔ s.lo < s.hi ∧ (∀ t ∈ r, s.hi ≤ t.lo) ∧ Ordered r := by
  constructor
  · rintro ⟨hpos, hapart⟩
    obtain ⟨hs, hr⟩ := pairwise_cons.mp hapart
    exact ⟨hpos s (.head _), hs, fun t ht => hpos t (mem_cons_of_mem s ht), hr⟩
  · rintro ⟨hs, hsr, hr⟩
    exact ⟨forall_mem_cons.mpr ⟨hs, hr.pos⟩, pairwise_cons.mpr ⟨hsr, hr.apart⟩⟩

/-- What an ordered list says around one of its spans. -/
theorem ordered_middle : Ordered (l ++ s :: r) ↔ Ordered (l ++ r) ∧ s.lo < s.hi ∧
    (∀ t ∈ l, t.hi ≤ s.lo) ∧ ∀ t ∈ r, s.hi ≤ t.lo := by
  rw [ordered_append, ordered_append, ordered_cons]
  constructor
  · rintro ⟨hl, ⟨hs, hsr, hr⟩, hlr⟩
    exact ⟨⟨hl, hr, fun t ht u hu => hlr t ht u (mem_cons_of_mem s hu)⟩, hs,
      fun t ht => hlr t ht s (.head _), hsr⟩
  · rintro ⟨⟨hl, hr, hlr⟩, hs, hls, hsr⟩
    refine ⟨hl, ⟨hs, hsr, hr⟩, fun t ht u hu => ?_⟩
    rcases mem_cons.mp hu with rfl | hu
    · exact hls t ht
    · exact hlr t ht u hu

/-- In an ordered list a span holds its own value, and the others the rest. -/
theorem lookup_middle (h : Ordered (l ++ s :: r)) :
    lookup (l ++ s :: r) = update (lookup (l ++ r)) s.lo s.hi s.val := by
  obtain ⟨-, -, hls, -⟩ := ordered_middle.mp h
  funext x
  unfold update
  by_cases hx : s.lo ≤ x ∧ x < s.hi
  · have hl : lookup l x = none := lookup_eq_none fun t ht hhas => by
      have := hls t ht
      have := hhas.2
      omega
    rw [if_pos hx, lookup_append, hl, lookup_cons, if_pos hx]
    rfl
  · rw [if_neg hx, lookup_append, lookup_append, lookup_cons, if_neg hx]

/-- Two spans that touch can be made one. -/
theorem ordered_join {lo mid hi : Nat} {v v₁ v₂ : α}
    (h : Ordered (l ++ ⟨lo, mid, v₁⟩ :: ⟨mid, hi, v₂⟩ :: r)) : Ordered (l ++ ⟨lo, hi, v⟩ :: r) := by
  obtain ⟨hmid, hlt, hl, -⟩ := ordered_middle.mp h
  obtain ⟨hlr, hlt', -, hr⟩ := ordered_middle.mp hmid
  exact ordered_middle.mpr ⟨hlr, Nat.lt_trans hlt hlt', hl, hr⟩

/-! ## Setting a part of a span -/

section Carve

variable {lo hi : Nat} {u v : α}

/-- What is left of a span between `lo` and `hi`, which may be nothing. -/
def rest (lo hi : Nat) (u : α) : List (Span α) := if lo < hi then [⟨lo, hi, u⟩] else []

theorem lookup_rest : lookup (rest lo hi u) x = if lo ≤ x ∧ x < hi then some u else none := by
  unfold rest
  split
  · rw [lookup_cons, lookup_nil]
  · rw [lookup_nil, if_neg (by omega)]

theorem ordered_rest (h : Ordered (l ++ r)) (hl : ∀ t ∈ l, t.hi ≤ lo) (hr : ∀ t ∈ r, hi ≤ t.lo) :
    Ordered (l ++ (rest lo hi u ++ r)) := by
  unfold rest
  split
  · rename_i hlt
    exact ordered_middle.mpr ⟨h, hlt, hl, hr⟩
  · exact h

theorem le_of_mem_rest (h : t ∈ rest lo hi u) : t.lo = lo ∧ t.hi = hi := by
  unfold rest at h
  split at h
  · rw [mem_singleton.mp h]
    exact ⟨rfl, rfl⟩
  · cases h

/-- A part of a span gets a value of its own. -/
theorem carve {a b : Nat} (h : Ordered (l ++ ⟨lo, hi, u⟩ :: r)) (h₁ : lo ≤ a) (h₂ : a < b)
    (h₃ : b ≤ hi) : Ordered (l ++ rest lo a u ++ ⟨a, b, v⟩ :: (rest b hi u ++ r)) ∧
      lookup (l ++ rest lo a u ++ ⟨a, b, v⟩ :: (rest b hi u ++ r)) =
        update (lookup (l ++ ⟨lo, hi, u⟩ :: r)) a b v := by
  obtain ⟨hlr, -, hl, hr⟩ := ordered_middle.mp h
  have hback : ∀ t ∈ rest b hi u ++ r, b ≤ t.lo := by
    intro t ht
    rcases mem_append.mp ht with ht | ht
    · exact Nat.le_of_eq (le_of_mem_rest ht).1.symm
    · exact Nat.le_trans h₃ (hr t ht)
  have hfront : ∀ t ∈ l ++ rest lo a u, t.hi ≤ a := by
    intro t ht
    rcases mem_append.mp ht with ht | ht
    · exact Nat.le_trans (hl t ht) h₁
    · exact Nat.le_of_eq (le_of_mem_rest ht).2
  have hsides : Ordered (l ++ rest lo a u ++ (rest b hi u ++ r)) := by
    rw [append_assoc]
    refine ordered_rest (ordered_rest hlr (fun t ht => ?_) hr) hl fun t ht => ?_
    · exact Nat.le_trans (hl t ht) (Nat.le_trans h₁ (Nat.le_of_lt h₂))
    · exact Nat.le_trans (Nat.le_of_lt h₂) (hback t ht)
  have hord : Ordered (l ++ rest lo a u ++ ⟨a, b, v⟩ :: (rest b hi u ++ r)) :=
    ordered_middle.mpr ⟨hsides, h₂, hfront, hback⟩
  refine ⟨hord, ?_⟩
  rw [lookup_middle hord]
  funext x
  unfold update
  by_cases hx : a ≤ x ∧ x < b
  · rw [if_pos hx, if_pos hx]
  · -- outside the part the sides are all of the span
    rw [if_neg hx, if_neg hx]
    simp only [lookup_append, lookup_rest, lookup_cons]
    cases lookup l x <;> grind

end Carve

/-! ## Neighbours -/

/-- The nearest number on either side of the range that has the value `v` is next to it. -/
structure Clear (m : Nat → Option α) (lo hi : Nat) (v : α) : Prop where
  left : ∀ x, x < lo → m x = some v → (∀ y, x < y → y < lo → m y = none) → x + 1 = lo
  right : ∀ x, hi ≤ x → m x = some v → (∀ y, hi ≤ y → y < x → m y = none) → x = hi

section Clear

variable {m : Nat → Option α} {lo mid hi : Nat} {v : α}

theorem update_of_mem (h₁ : lo ≤ x) (h₂ : x < hi) : update m lo hi v x = some v := by
  rw [update, if_pos ⟨h₁, h₂⟩]

theorem update_of_lt (h : x < lo) : update m lo hi v x = m x := by
  rw [update, if_neg (by omega)]

theorem update_of_ge (h : hi ≤ x) : update m lo hi v x = m x := by
  rw [update, if_neg (by omega)]

/-- An update that changes no value. -/
theorem update_eq_self (h : ∀ x, lo ≤ x → x < hi → m x = some v) : update m lo hi v = m := by
  funext x
  unfold update
  split
  · rename_i hx
    exact (h x hx.1 hx.2).symm
  · rfl

/-- Two updates one behind the other are one. -/
theorem update_update (h₁ : lo ≤ mid) (h₂ : mid ≤ hi) :
    update (update m lo mid v) mid hi v = update m lo hi v := by
  funext x
  unfold update
  by_cases hx : lo ≤ x ∧ x < hi
  · rw [if_pos hx]
    by_cases hmid : mid ≤ x ∧ x < hi
    · rw [if_pos hmid]
    · rw [if_neg hmid, if_pos (by omega)]
  · rw [if_neg hx, if_neg (by omega), if_neg (by omega)]

/-- The range's own value does not count. -/
theorem Clear.update (h : Clear m lo hi v) : Clear (update m lo hi v) lo hi v := by
  constructor
  · intro x hx hv hgap
    rw [update_of_lt hx] at hv
    exact h.left x hx hv fun y hxy hy => (update_of_lt hy).symm.trans (hgap y hxy hy)
  · intro x hx hv hgap
    rw [update_of_ge hx] at hv
    exact h.right x hx hv fun y hy hyx => (update_of_ge hy).symm.trans (hgap y hy hyx)

/-- The first part of a range, if the second is mapped. -/
theorem Clear.first (h : Clear m lo hi v) (hmid : m mid ≠ none) : Clear m lo mid v := by
  refine ⟨h.left, fun x hx _ hgap => ?_⟩
  rcases Nat.eq_or_lt_of_le hx with rfl | hlt
  · rfl
  · exact absurd (hgap mid (Nat.le_refl mid) hlt) hmid

/-- The second part of a range, once the first one has the value. -/
theorem Clear.second (h : Clear m lo hi v) (h₁ : lo < mid) (h₂ : mid ≤ hi) :
    Clear (Span.update m lo mid v) mid hi v := by
  constructor
  · intro x hx _ hgap
    by_cases hnext : x + 1 = mid
    · exact hnext
    · have hnone := hgap (mid - 1) (by omega) (by omega)
      rw [update_of_mem (by omega) (by omega)] at hnone
      cases hnone
  · intro x hx hv hgap
    rw [update_of_ge (by omega)] at hv
    exact h.right x hx hv fun y hy hyx =>
      (update_of_ge (Nat.le_trans h₂ hy)).symm.trans (hgap y hy hyx)

end Clear

theorem lookup_of_mem (h : Ordered l) (hs : s ∈ l) (hx : s.Has x) : lookup l x = some s.val := by
  obtain ⟨a, b, rfl⟩ := append_of_mem hs
  rw [lookup_middle h]
  exact update_of_mem hx.1 hx.2

theorem exists_of_lookup {v : α} (h : lookup l x = some v) : ∃ s ∈ l, s.Has x ∧ s.val = v := by
  unfold lookup at h
  obtain ⟨s, hs, rfl⟩ := Option.map_eq_some_iff.mp h
  exact ⟨s, mem_of_find?_eq_some hs, by simpa using List.find?_some hs, rfl⟩

/-- Two spans of an ordered list that share a number are the same. -/
theorem Ordered.eq_of_has (h : Ordered l) (hs : s ∈ l) (ht : t ∈ l) (hx : s.Has x)
    (hx' : t.Has x) : s = t := by
  obtain ⟨a, b, rfl⟩ := append_of_mem hs
  obtain ⟨-, -, hl, hr⟩ := ordered_middle.mp h
  rcases mem_append.mp ht with ht | ht
  · have := hl t ht
    omega
  · rcases mem_cons.mp ht with rfl | ht
    · rfl
    · have := hr t ht
      omega

theorem lookup_gap {y : Nat} (h : Ordered (l ++ s :: t :: r)) (hs : s.hi ≤ y) (ht : y < t.lo) :
    lookup (l ++ s :: t :: r) y = none := by
  obtain ⟨hrest, hspos, hl, -⟩ := ordered_middle.mp h
  obtain ⟨-, htpos, -, hr⟩ := ordered_middle.mp hrest
  refine lookup_eq_none fun q hq hhas => ?_
  rcases mem_append.mp hq with hq | hq
  · have := hl q hq
    omega
  rcases mem_cons.mp hq with rfl | hq
  · omega
  rcases mem_cons.mp hq with rfl | hq
  · omega
  · have := hr q hq
    omega

/-- A span of the same value right before a clear one touches it. -/
theorem Clear.touch_left (h : Ordered (l ++ t :: s :: r))
    (hc : Clear (lookup (l ++ t :: s :: r)) s.lo s.hi s.val) (hv : t.val = s.val) :
    t.hi = s.lo := by
  obtain ⟨-, hpos, -, hr⟩ := ordered_middle.mp h
  have hle : t.hi ≤ s.lo := hr s (.head _)
  have hmem : t ∈ l ++ t :: s :: r := mem_append_right _ (.head _)
  have hlast : lookup (l ++ t :: s :: r) (t.hi - 1) = some s.val := by
    rw [lookup_of_mem h hmem ⟨by omega, by omega⟩, hv]
  have := hc.left (t.hi - 1) (by omega) hlast fun y hty hys => lookup_gap h (by omega) hys
  omega

/-- A span of the same value right behind a clear one touches it. -/
theorem Clear.touch_right (h : Ordered (l ++ s :: t :: r))
    (hc : Clear (lookup (l ++ s :: t :: r)) s.lo s.hi s.val) (hv : t.val = s.val) :
    s.hi = t.lo := by
  obtain ⟨hrest, -, -, hr⟩ := ordered_middle.mp h
  obtain ⟨-, htpos, -, -⟩ := ordered_middle.mp hrest
  have hle : s.hi ≤ t.lo := hr t (.head _)
  have hmem : t ∈ l ++ s :: t :: r := mem_append_right _ (mem_cons_of_mem s (.head _))
  have hfirst : lookup (l ++ s :: t :: r) t.lo = some s.val := by
    rw [lookup_of_mem h hmem ⟨Nat.le_refl _, htpos⟩, hv]
  exact (hc.right t.lo hle hfirst fun y => lookup_gap h).symm

/-- Any span of the value that does not touch the range has another one in between. -/
def Bridged (l : List (Span α)) (lo hi : Nat) (v : α) : Prop :=
  ∀ s ∈ l, s.val = v → (s.hi < lo → ∃ t ∈ l, s.hi ≤ t.lo ∧ t.lo < lo) ∧
    (hi < s.lo → ∃ t ∈ l, hi < t.hi ∧ t.hi ≤ s.lo)

instance [DecidableEq α] (l : List (Span α)) (lo hi : Nat) (v : α) :
    Decidable (Bridged l lo hi v) :=
  inferInstanceAs (Decidable (∀ s ∈ l, _ → _ ∧ _))

theorem Bridged.clear {lo hi : Nat} {v : α} (h : Ordered l) (hb : Bridged l lo hi v) :
    Clear (lookup l) lo hi v := by
  constructor
  · intro x hx hv hgap
    obtain ⟨s, hs, hhas, hval⟩ := exists_of_lookup hv
    by_cases hend : s.hi < lo
    · -- the span in between is mapped
      obtain ⟨t, ht, hst, htlo⟩ := (hb s hs hval).1 hend
      have hsome := lookup_of_mem h ht ⟨Nat.le_refl _, h.pos t ht⟩
      rw [hgap t.lo (by omega) htlo] at hsome
      cases hsome
    · by_cases hnext : x + 1 = lo
      · exact hnext
      · have hsome := lookup_of_mem h hs (x := lo - 1) ⟨by omega, by omega⟩
        rw [hgap (lo - 1) (by omega) (by omega)] at hsome
        cases hsome
  · intro x hx hv hgap
    obtain ⟨s, hs, hhas, hval⟩ := exists_of_lookup hv
    by_cases hstart : hi < s.lo
    · obtain ⟨t, ht, hhi, hts⟩ := (hb s hs hval).2 hstart
      have hsome := lookup_of_mem h ht (x := t.hi - 1) ⟨by have := h.pos t ht; omega, by omega⟩
      rw [hgap (t.hi - 1) (by omega) (by omega)] at hsome
      cases hsome
    · by_cases hnext : x = hi
      · exact hnext
      · have hsome := lookup_of_mem h hs (x := hi) ⟨by omega, by omega⟩
        rw [hgap hi (Nat.le_refl _) (by omega)] at hsome
        cases hsome

end Span

end Mios.Lib
