import Mathlib.Data.List.Infix

/-! The wildcard matcher `glob` of `lib/libc/string.c`: it goes back to the last `*` only, and takes
a `*` of the pattern at a `*` of the string for an equal character. -/

namespace Mios.Glob

open List

/-- The rest of the string and of the pattern; `star` is the pattern behind the last `*` and the
string from where it was met. -/
def globLoop (s p : List Char) (star : Option (List Char × List Char)) : Bool :=
  match s with
  | [] => p.all (· = '*')
  | c :: s' =>
    if p.head? = some '?' ∨ p.head? = some c then globLoop s' p.tail star
    else if p.head? = some '*' then globLoop (c :: s') p.tail (some (p.tail, c :: s'))
    else match star with
      | some (ps, _ :: ss) => globLoop ss ps (some (ps, ss))
      | some (_, []) | none => false
termination_by (max p.length (star.elim 0 (·.1.length)), star.elim 0 (·.2.length), s.length)
decreasing_by
  · simp only [Prod.lex_def, length_tail, length_cons, true_and]
    omega
  · have := length_pos_of_mem (mem_of_mem_head? ‹_›)
    simp only [Prod.lex_def, length_tail, Option.elim_some]
    omega
  · simp only [Prod.lex_def, Option.elim_some, length_cons]
    omega

def glob (str pat : List Char) : Bool := globLoop str pat none

/-! ## The rules -/

/-- `*` matches any substring, `?` any character, every other character itself. -/
inductive Matches : List Char → List Char → Prop
  | nil : Matches [] []
  | any (c : Char) {s p : List Char} (h : Matches s p) : Matches (c :: s) ('?' :: p)
  | char {c : Char} {s p : List Char} (hc : c ≠ '*') (h : Matches s p) : Matches (c :: s) (c :: p)
  | star {s t p : List Char} (ht : t <:+ s) (h : Matches t p) : Matches s ('*' :: p)

/-- The same, but a `*` at a `*` of the string matches this character only. -/
inductive Narrow : List Char → List Char → Prop
  | nil : Narrow [] []
  | any (c : Char) {s p : List Char} (h : Narrow s p) : Narrow (c :: s) ('?' :: p)
  | char (c : Char) {s p : List Char} (h : Narrow s p) : Narrow (c :: s) (c :: p)
  | star {s t p : List Char} (hs : s.head? ≠ some '*') (ht : t <:+ s) (h : Narrow t p) :
      Narrow s ('*' :: p)

variable {s t ss p ps : List Char} {c q : Char}

theorem Narrow.matches (h : Narrow s p) : Matches s p := by
  induction h with
  | nil => exact .nil
  | any c _ ih => exact .any c ih
  | @char c s p _ ih =>
    by_cases hc : c = '*'
    · rw [hc]
      exact .star (suffix_cons '*' s) ih
    · exact .char hc ih
  | star _ ht _ ih => exact .star ht ih

theorem narrow_cons (h : q = '?' ∨ q = c) : Narrow (c :: s) (q :: p) ↔ Narrow s p := by
  constructor
  · intro hn
    cases hn with
    | any _ hn | char _ hn => exact hn
    | star hs =>
      rcases h with h | h
      · cases h
      · exact absurd (congrArg some h.symm) hs
  · intro hn
    rcases h with rfl | rfl
    · exact .any c hn
    · exact .char q hn

theorem Narrow.exists_suffix (h : Narrow s ('*' :: p)) : ∃ t, t <:+ s ∧ Narrow t p := by
  cases h with
  | char _ hn => exact ⟨_, suffix_cons _ _, hn⟩
  | star _ ht hn => exact ⟨_, ht, hn⟩

/-- Characters of the pattern were met one by one since the last `*`. -/
inductive Met (ss ps : List Char) : List Char → List Char → Prop
  | refl : Met ss ps ss ps
  | step {c q : Char} {s p : List Char} (h : Met ss ps (c :: s) (q :: p)) (hq : q = '?' ∨ q = c) :
      Met ss ps s p

theorem Met.suffix (h : Met ss ps s p) : s <:+ ss := by
  induction h with
  | refl => exact suffix_rfl
  | step _ _ ih => exact (suffix_cons _ _).trans ih

/-- If the last `*` may match more, what is left of the string may lose as much of its front. -/
theorem Met.shift (h : Met ss ps s p) (ht : t <:+ ss) (hn : Narrow t ps) :
    ∃ u, u <:+ s ∧ Narrow u p := by
  induction h with
  | refl => exact ⟨t, ht, hn⟩
  | @step c q s p _ hq ih =>
    obtain ⟨u, hu, hun⟩ := ih
    rcases suffix_cons_iff.mp hu with rfl | hu
    · exact ⟨s, suffix_rfl, (narrow_cons hq).mp hun⟩
    cases hun with
    | any _ hn | char _ hn => exact ⟨_, (suffix_cons _ _).trans hu, hn⟩
    | star _ hv hn => exact ⟨_, hv.trans hu, hn⟩

theorem narrow_nil : Narrow [] p ↔ p.all (· = '*') = true := by
  induction p with
  | nil => simp [Narrow.nil]
  | cons q p ih =>
    rw [all_cons, Bool.and_eq_true, ← ih]
    constructor
    · intro hn
      cases hn with
      | star _ ht hn => exact ⟨rfl, suffix_nil.mp ht ▸ hn⟩
    · rintro ⟨hq, hn⟩
      rw [of_decide_eq_true hq]
      exact .star (by simp) suffix_rfl hn

/-- What the loop may still find: a match from here, or one of the last `*` with more of the
string. -/
def Open (s p : List Char) (star : Option (List Char × List Char)) : Prop :=
  Narrow s p ∨ ∃ ps ss t, star = some (ps, ss) ∧ t <:+ ss.tail ∧ Narrow t ps

theorem open_self : Open ss ps (some (ps, ss)) ↔ ∃ t, t <:+ ss ∧ Narrow t ps := by
  constructor
  · rintro (hn | ⟨ps, ss, t, hstar, ht, hn⟩)
    · exact ⟨ss, suffix_rfl, hn⟩
    · cases hstar
      exact ⟨t, ht.trans (tail_suffix ss), hn⟩
  · rintro ⟨t, ht, hn⟩
    by_cases hts : t = ss
    · exact .inl (hts ▸ hn)
    · refine .inr ⟨ps, ss, t, rfl, ?_, hn⟩
      cases ss with
      | nil => exact ht
      | cons x ss => exact (suffix_cons_iff.mp ht).resolve_left hts

theorem not_narrow (hc : ¬(p.head? = some '?' ∨ p.head? = some c)) (hstar : p.head? ≠ some '*') :
    ¬Narrow (c :: s) p := by
  intro hn
  cases hn with
  | any => exact hc (.inl rfl)
  | char => exact hc (.inr rfl)
  | star => exact hstar rfl

theorem globLoop_iff (star : Option (List Char × List Char))
    (hmet : ∀ ps ss, star = some (ps, ss) → Met ss ps s p) :
    globLoop s p star = true ↔ Open s p star := by
  -- a match of an earlier `*` is one of a later `*` too
  have hshift : ∀ {s p star}, (∀ ps ss, star = some (ps, ss) → Met ss ps s p) →
      Open s p star → ∃ u, u <:+ s ∧ Narrow u p := by
    rintro s p star hmet (hn | ⟨ps, ss, t, hstar, ht, hn⟩)
    · exact ⟨s, suffix_rfl, hn⟩
    · exact (hmet ps ss hstar).shift (ht.trans (tail_suffix ss)) hn
  have hself : ∀ ps ss ps' ss', some (ps, ss) = some (ps', ss') → Met ss' ps' ss ps := by
    intro ps ss ps' ss' heq
    cases heq
    exact .refl
  induction s, p, star using globLoop.induct with
  | case1 p star =>
    rw [globLoop, ← narrow_nil]
    refine ⟨.inl, fun h => ?_⟩
    obtain ⟨u, hu, hn⟩ := hshift hmet h
    rwa [suffix_nil.mp hu] at hn
  | case2 p star c s h ih =>
    obtain ⟨q, hq, p, rfl⟩ : ∃ q, (q = '?' ∨ q = c) ∧ ∃ p', p = q :: p' := by
      simpa [List.head?_eq_some_iff] using h
    rw [globLoop.eq_def]
    dsimp only
    rw [if_pos h, Open, narrow_cons hq]
    exact ih fun ps ss hstar => (hmet ps ss hstar).step hq
  | case3 p star c s h hstar ih =>
    obtain ⟨p, rfl⟩ : ∃ p', p = '*' :: p' := List.head?_eq_some_iff.mp hstar
    rw [globLoop.eq_def]
    dsimp only
    rw [if_neg h, if_pos hstar]
    refine ((ih (hself p (c :: s))).trans open_self).trans ⟨?_, fun ho => ?_⟩
    · rintro ⟨t, ht, hn⟩
      exact .inl (.star (fun hc => h (.inr (hstar.trans hc.symm))) ht hn)
    · obtain ⟨u, hu, hn⟩ := hshift hmet ho
      obtain ⟨t, ht, hn⟩ := hn.exists_suffix
      exact ⟨t, ht.trans hu, hn⟩
  | case4 p c s h hstar ps x ss ih =>
    rw [globLoop.eq_def]
    dsimp only
    rw [if_neg h, if_neg hstar]
    refine ((ih (hself ps ss)).trans open_self).trans ⟨?_, ?_⟩
    · rintro ⟨t, ht, hn⟩
      exact .inr ⟨ps, x :: ss, t, rfl, ht, hn⟩
    · rintro (hn | ⟨ps, ss, t, heq, ht, hn⟩)
      · exact absurd hn (not_narrow h hstar)
      · cases heq
        exact ⟨t, ht, hn⟩
  | case5 p c s h hstar ps =>
    exact absurd (suffix_nil.mp (hmet ps [] rfl).suffix) (cons_ne_nil c s)
  | case6 p c s h hstar =>
    rw [globLoop.eq_def]
    dsimp only
    rw [if_neg h, if_neg hstar]
    simpa [Open] using not_narrow h hstar

/-- The matcher is right unless the only matches need a `*` of the pattern at a `*` of the string
to be a wildcard. -/
theorem glob_correct_iff (s p : List Char) :
    (glob s p = true ↔ Matches s p) ↔ (Matches s p → Narrow s p) := by
  have hglob : glob s p = true ↔ Narrow s p := by
    rw [glob, globLoop_iff none (fun _ _ h => by cases h)]
    simp [Open]
  rw [hglob]
  exact ⟨Iff.mpr, fun h => ⟨Narrow.matches, h⟩⟩

/-- The pattern `*` matches everything, but not a string that begins with `*`. -/
theorem star_unmatched : Matches ['*', 'a'] ['*'] ∧ glob ['*', 'a'] ['*'] = false := by
  refine ⟨.star (nil_suffix) .nil, ?_⟩
  simp [glob, globLoop]

end Mios.Glob
