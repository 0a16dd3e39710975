import Mathlib.Algebra.Order.BigOperators.Group.List
import Mathlib.Algebra.Order.Ring.Int
import Mathlib.Data.List.Sort
import Mathlib.Tactic.Ring

/-! The clock servo: a large offset steps the clock, small ones slew it through a median filter. -/

namespace Mios.ClockServo

open List

def stepThresholdNs : Nat := 100000000

def maxAdjPpb : Int := 100000

/-- `CLOCK_SERVO_MEDIAN_WINDOW`. -/
def window : Nat := 8

/-- `sorted` has the first `cs_sample_count` entries of its array. -/
structure Servo where
  accumulatedDriftPpb : Int := 0
  history : Nat → Int := fun _ => 0
  sorted : List Int := []
  sampleWrite : Nat := 0

/-- What the clock is told. -/
inductive Act
  | setTime (ahead : Int)
  | adjTime (ppb : Int)

def medianFilter (s : Servo) (offset : Int) : Int × Servo :=
  -- a sample that is not found would be moved from behind the array
  let rest := if s.sorted.length = window then s.sorted.erase (s.history s.sampleWrite)
    else s.sorted
  -- larger samples move up, from the end on
  let sorted := (rest.reverse.orderedInsert (· ≥ ·) offset).reverse
  (sorted.getD (sorted.length / 2) 0,
    { s with sorted := sorted, history := Function.update s.history s.sampleWrite offset,
             sampleWrite := (s.sampleWrite + 1) % window })

def clockServoStep (s : Servo) (offset : Int) : Act × Servo :=
  (.setTime offset, { s with accumulatedDriftPpb := 0, sorted := [], sampleWrite := 0 })

/-- The accumulated drift after an update, clamped against windup. -/
def nextDrift (drift filtered interval : Int) : Int :=
  max (-maxAdjPpb) (min maxAdjPpb (drift + (filtered >>> (7 : Nat)) * interval))

/-- The filter gets the offset as an `int32_t`. -/
def clockServoSlew (s : Servo) (offset interval : Int) : Act × Servo :=
  let (filtered, s) := medianFilter s (offset.bmod (2 ^ 32))
  let drift := nextDrift s.accumulatedDriftPpb filtered interval
  (.adjTime (filtered >>> (2 : Nat) + drift), { s with accumulatedDriftPpb := drift })

/-- The least offset, whose negation overflows, is not given. -/
def clockServoAdjust (s : Servo) (offset interval : Int) : Act × Servo :=
  if stepThresholdNs < offset.natAbs then clockServoStep s offset
  else clockServoSlew s offset interval

/-- The servo after the offsets, each with its update interval. -/
def run (inputs : List (Int × Int)) : Servo :=
  inputs.foldl (fun s i => (clockServoAdjust s i.1 i.2).2) {}

/-! ## The window -/

/-- The offsets slewed since the last step. -/
def slewed (inputs : List (Int × Int)) : List Int :=
  inputs.foldl (fun l i => if stepThresholdNs < i.1.natAbs then [] else l ++ [i.1]) []

/-- The last ones in ascending order, at most a window of them. -/
def recent (l : List Int) : List Int := (l.drop (l.length - window)).insertionSort (· ≤ ·)

def upperMedian (l : List Int) : Int := (recent l).getD ((recent l).length / 2) 0

/-- The servo after the samples `l`. -/
structure Holds (l : List Int) (s : Servo) : Prop where
  sorted : s.sorted = recent l
  write : s.sampleWrite = l.length % window
  ring : ∀ i x, l[i]? = some x → l.length ≤ i + window → s.history (i % window) = x

variable {l : List Int} {s : Servo}

theorem ascending_recent : (recent l).Pairwise (· ≤ ·) := pairwise_insertionSort _ _

theorem recent_perm (l : List Int) : recent l ~ l.drop (l.length - window) := perm_insertionSort _ _

/-- The next sample is stored over the oldest one. -/
theorem Holds.oldest (h : Holds l s) (hfull : s.sorted.length = window) :
    s.sorted ~ s.history s.sampleWrite :: l.drop (l.length + 1 - window) := by
  have hlen := (recent_perm l).length_eq
  rw [← h.sorted, hfull, length_drop] at hlen
  obtain ⟨k, hk⟩ : ∃ k, l.length = k + window := Nat.exists_eq_add_of_le' (by omega)
  have hlt : k < l.length := by
    rw [hk]
    exact Nat.lt_add_of_pos_right (by decide)
  have hold := h.ring k _ (getElem?_eq_getElem hlt) hk.le
  have hperm := recent_perm l
  rw [← h.sorted, hk, Nat.add_sub_cancel, drop_eq_getElem_cons hlt, ← hold] at hperm
  rwa [h.write, hk, Nat.add_mod_right, Nat.add_right_comm, Nat.add_sub_cancel]

theorem medianFilter_sorted (h : Holds l s) (x : Int) :
    (medianFilter s x).2.sorted = recent (l ++ [x]) := by
  rw [medianFilter]
  generalize hrest : (if s.sorted.length = window then s.sorted.erase (s.history s.sampleWrite)
    else s.sorted) = rest
  have hsub : rest <+ recent l := by
    rw [← hrest, ← h.sorted]
    split
    · exact erase_sublist
    · exact .refl _
  have hperm : rest ~ l.drop (l.length + 1 - window) := by
    rw [← hrest]
    split
    · rename_i hfull
      simpa using (h.oldest hfull).erase (s.history s.sampleWrite)
    · rename_i hpart
      have hlen := (recent_perm l).length_eq
      rw [h.sorted, length_drop] at *
      rw [show l.length + 1 - window = l.length - window by omega]
      exact recent_perm l
  refine Perm.eq_of_pairwise (fun _ _ _ _ => le_antisymm) ?_ ascending_recent ?_
  · have hasc := ascending_recent.sublist hsub
    exact pairwise_reverse.mpr ((pairwise_reverse.mpr hasc).orderedInsert x _)
  refine Perm.trans ?_ (recent_perm _).symm
  rw [length_append, length_singleton, drop_append_of_le_length (by simp [window])]
  calc (rest.reverse.orderedInsert (· ≥ ·) x).reverse
    _ ~ rest.reverse.orderedInsert (· ≥ ·) x := reverse_perm _
    _ ~ x :: rest.reverse := perm_orderedInsert _ _ _
    _ ~ x :: l.drop (l.length + 1 - window) := ((reverse_perm _).trans hperm).cons _
    _ ~ l.drop (l.length + 1 - window) ++ [x] := (perm_append_singleton _ _).symm

theorem medianFilter_holds (h : Holds l s) (x : Int) : Holds (l ++ [x]) (medianFilter s x).2 := by
  refine ⟨medianFilter_sorted h x, ?_, fun i y hi hrec => ?_⟩
  · rw [length_append, length_singleton, ← Nat.mod_add_mod, ← h.write]
    rfl
  rw [length_append, length_singleton] at hrec
  change Function.update s.history s.sampleWrite x _ = y
  rcases Nat.lt_or_ge i l.length with hlt | hge
  · rw [getElem?_append_left hlt] at hi
    have hne : i % window ≠ s.sampleWrite := by
      rw [h.write, window] at *
      omega
    rw [Function.update_of_ne hne]
    exact h.ring i y hi (by omega)
  · have hlast := (List.getElem?_eq_some_iff.mp hi).1
    rw [length_append, length_singleton] at hlast
    obtain rfl : i = l.length := by omega
    rw [h.write, Function.update_self]
    simpa using hi

theorem bmod_slewed {offset : Int} (h : ¬stepThresholdNs < offset.natAbs) :
    offset.bmod (2 ^ 32) = offset := by
  rw [stepThresholdNs] at h
  exact Int.bmod_eq_of_le (by omega) (by omega)

theorem run_holds (inputs : List (Int × Int)) : Holds (slewed inputs) (run inputs) := by
  refine foldl_rel ⟨rfl, rfl, by simp⟩ fun i _ l s h => ?_
  rw [clockServoAdjust]
  split
  · exact ⟨rfl, rfl, by simp⟩
  · rename_i hslew
    have hfilter := medianFilter_holds h i.1
    rw [clockServoSlew, bmod_slewed hslew]
    exact { hfilter with }

/-- After every sequence of offsets the sorted array has the last ones slewed in ascending order,
the one to be removed is found, and the next one is slewed by the upper median. -/
theorem run_median (inputs : List (Int × Int)) :
    (run inputs).sorted = recent (slewed inputs) ∧
      ((run inputs).sorted.length = window →
        (run inputs).history (run inputs).sampleWrite ∈ (run inputs).sorted) ∧
      ∀ offset interval : Int, ¬stepThresholdNs < offset.natAbs →
        ∃ median drift, median = upperMedian (slewed inputs ++ [offset]) ∧
          drift = nextDrift (run inputs).accumulatedDriftPpb median interval ∧
          (clockServoAdjust (run inputs) offset interval).1 =
            .adjTime (median >>> (2 : Nat) + drift) ∧
          (clockServoAdjust (run inputs) offset interval).2.accumulatedDriftPpb = drift := by
  have h := run_holds inputs
  refine ⟨h.sorted, fun hfull => (h.oldest hfull).mem_iff.mpr (.head _), ?_⟩
  intro offset interval hslew
  have hmedian : (medianFilter (run inputs) offset).1 = upperMedian (slewed inputs ++ [offset]) := by
    rw [upperMedian, ← medianFilter_sorted h]
    rfl
  refine ⟨_, _, hmedian, rfl, ?_⟩
  rw [clockServoAdjust, if_neg hslew, clockServoSlew, bmod_slewed hslew]
  exact ⟨rfl, rfl⟩

/-! ## The jitter -/

/-- The first bit tried. -/
def firstBit (x bit : Nat) : Nat := if x < bit then firstBit x (bit / 4) else bit

def rootLoop (x r bit : Nat) : Nat :=
  if bit = 0 then r
  else if r + bit ≤ x then rootLoop (x - (r + bit)) (r / 2 + bit) (bit / 4)
  else rootLoop x (r / 2) (bit / 4)

def isqrt64 (x : Int) : Nat :=
  if x ≤ 0 then 0 else rootLoop x.toNat 0 (firstBit x.toNat (2 ^ 30))

/-- What `clock_servo_print` gives to `isqrt64`: divisions go towards zero. -/
def variance (samples : List Int) : Int :=
  let mean := samples.sum.tdiv samples.length
  (samples.map fun x => (x - mean) * (x - mean)).sum.tdiv samples.length

theorem rootLoop_firstBit (x bit : Nat) : rootLoop x 0 (firstBit x bit) = rootLoop x 0 bit := by
  fun_induction firstBit x bit with
  | case1 bit hlt ih =>
    rw [ih, rootLoop.eq_def x 0 bit, if_neg (by omega), if_neg (by omega)]
  | case2 => rfl

/-- With `k` bits to go and the root `p` so far. -/
theorem rootLoop_eq (k p rem : Nat) : rootLoop rem (p * 2 ^ k) (4 ^ k / 4) =
    min (p * p + rem).sqrt (p + (2 ^ k - 1)) := by
  induction k generalizing p rem with
  | zero =>
    have hp : p ≤ (p * p + rem).sqrt := Nat.le_sqrt.mpr (Nat.le_add_right _ _)
    rw [rootLoop]
    simpa using hp
  | succ k ih =>
    have hbit : 4 ^ (k + 1) / 4 = 4 ^ k := Nat.mul_div_cancel _ (by decide)
    have hhalf : p * 2 ^ (k + 1) / 2 = p * 2 ^ k := by
      rw [Nat.pow_succ, ← Nat.mul_assoc, Nat.mul_div_cancel _ (by decide)]
    have hsquare : (p + 2 ^ k) * (p + 2 ^ k) = p * p + (p * 2 ^ (k + 1) + 4 ^ k) := by
      rw [show (4 : Nat) = 2 * 2 from rfl, Nat.mul_pow]
      ring
    have hpow : 2 ^ (k + 1) = 2 ^ k + 2 ^ k := by ring
    have hpos := Nat.two_pow_pos k
    have hfour : 4 ^ k ≠ 0 := (Nat.pow_pos (by decide)).ne'
    rw [rootLoop, hbit, if_neg hfour, hhalf]
    split
    · rename_i hle
      have hnext : p * 2 ^ k + 4 ^ k = (p + 2 ^ k) * 2 ^ k := by
        rw [Nat.add_mul, ← Nat.mul_pow]
      rw [hnext, ih, hsquare, Nat.add_assoc (p * p), Nat.add_sub_cancel' hle]
      congr 1
      omega
    · have hlt : (p * p + rem).sqrt < p + 2 ^ k := by
        rw [Nat.sqrt_lt, hsquare]
        omega
      rw [ih]
      omega

/-- Sixteen bits come out of the loop. -/
theorem isqrt64_eq (x : Int) : isqrt64 x = min x.toNat.sqrt 65535 := by
  rw [isqrt64]
  split
  · rw [Int.toNat_of_nonpos ‹_›]
    rfl
  · have hroot := rootLoop_eq 16 0 x.toNat
    rw [rootLoop_firstBit]
    simpa using hroot

theorem variance_nonneg (samples : List Int) : 0 ≤ variance samples := by
  refine Int.tdiv_nonneg (sum_nonneg ?_) (Int.natCast_nonneg _)
  rintro _ hx
  obtain ⟨x, -, rfl⟩ := mem_map.mp hx
  exact mul_self_nonneg _

/-- The standard deviation is right as long as it has sixteen bits. -/
theorem isqrt64_iff (samples : List Int) :
    IsGreatest {r : Nat | (r * r : Int) ≤ variance samples} (isqrt64 (variance samples)) ↔
      variance samples < 2 ^ 32 := by
  obtain ⟨x, hx⟩ := Int.eq_ofNat_of_zero_le (variance_nonneg samples)
  rw [hx, isqrt64_eq, Int.toNat_natCast]
  constructor
  · intro h
    by_contra hge
    have hlarge : 65536 ≤ min x.sqrt 65535 := h.2 (by simpa using hge)
    omega
  · intro hlt
    have hsmall : x.sqrt < 65536 := Nat.sqrt_lt.mpr (by omega)
    rw [min_eq_left (by omega)]
    exact ⟨by exact_mod_cast Nat.sqrt_le x, fun r hr => Nat.le_sqrt.mpr (by exact_mod_cast hr)⟩

/-- Two samples at the threshold: 65535 ns are printed for 100 ms. -/
theorem isqrt64_threshold :
    variance (run [(100000000, 1), (-100000000, 1)]).sorted = 10 ^ 16 ∧
      isqrt64 (10 ^ 16) = 65535 ∧ (100000000 * 100000000 : Int) = 10 ^ 16 := by
  refine ⟨by decide, ?_, by decide⟩
  have hroot : 65535 ≤ (10 ^ 16 : Int).toNat.sqrt := Nat.le_sqrt.mpr (by decide)
  rw [isqrt64_eq, min_eq_right hroot]

end Mios.ClockServo
