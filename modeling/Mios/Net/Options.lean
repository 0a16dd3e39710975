import Mios.Net.Input

/-! The options of a TCP header: what `tcp_parse_options` makes of an option area, against a scan of
the area that stops at the end of the list and at the first malformed option. The code goes on behind
a malformed option, unless its length is zero. -/

namespace Mios.Net

open Lib

/-! ## The options of an area -/

/-- Why a scan stops: at the end of the list or of the area, at an option that does not fit in the
area, or at one with a length that no option of its kind has. -/
inductive Stop where
  | finished | cut | malformed
  deriving DecidableEq, Repr

/-- The options up to the first one that is `bad` by its kind and length, each with its kind and the
bytes behind its length. The length of an option counts its first two bytes. -/
def scanUntil (bad : Byte → Nat → Bool) : Nat → List Byte → List (Byte × List Byte) × Stop
  | 0, _ => ([], .finished)
  | _ + 1, [] => ([], .finished)
  | fuel + 1, kind :: bs =>
    if kind = 0 then ([], .finished)
    else if kind = 1 then scanUntil bad fuel bs
    else
      match bs with
      | [] => ([], .cut)
      | optlen :: body =>
        if body.length + 2 < optlen.toNat then ([], .cut)
        else if bad kind optlen.toNat then ([], .malformed)
        else
          let r := scanUntil bad fuel ((kind :: optlen :: body).drop optlen.toNat)
          ((kind, body) :: r.1, r.2)

/-- An MSS option has two bytes behind its length. -/
def malformed (kind : Byte) (optlen : Nat) : Bool := optlen < 2 || kind == 2 && optlen != 4

/-- An option from which the code does not come further. -/
def empty (_ : Byte) (optlen : Nat) : Bool := optlen == 0

/-- The well-formed options. -/
def scan (fuel : Nat) (bs : List Byte) : List (Byte × List Byte) × Stop := scanUntil malformed fuel bs

/-- All options that the code comes to. -/
def reached (fuel : Nat) (bs : List Byte) : List (Byte × List Byte) × Stop := scanUntil empty fuel bs

def mssOf (option : Byte × List Byte) : Option Nat :=
  if option.1 = 2 then some ((option.2.getD 0 0).toNat * 256 + (option.2.getD 1 0).toNat) else none

/-- The value of the last MSS option. -/
def lastMss : List (Byte × List Byte) → Option Nat
  | [] => none
  | option :: options => (lastMss options).or (mssOf option)

/-! ## What is looked at -/

def optionReads (m : Nat → Byte) (a optlen : Nat) : List Nat :=
  if m a = 2 then [a + 3, a + 2] else if m a = 3 ∧ optlen = 3 then [a + 2] else []

/-- The addresses of the bytes that `tcp_parse_options` looks at. -/
def inspected (m : Nat → Byte) : Nat → Nat → Nat → List Nat
  | _, _, 0 => []
  | 0, _, _ + 1 => []
  | fuel + 1, a, len + 1 =>
    if m a = 0 then [a]
    else if m a = 1 then a :: inspected m fuel (a + 1) len
    else if len + 1 < 2 then [a]
    else
      let optlen := (m (a + 1)).toNat
      if len + 1 < optlen then [a, a + 1]
      else [a, a + 1] ++ optionReads m a optlen ++ inspected m fuel (a + optlen) (len + 1 - optlen)

theorem parseOption_congr {m m' : Nat → Byte} {a optlen : Nat} (o : TcpOptions) (h : m a = m' a)
    (hreads : ∀ i ∈ optionReads m a optlen, m i = m' i) :
    parseOption m a optlen o = parseOption m' a optlen o := by
  unfold parseOption
  unfold optionReads at hreads
  rw [← h]
  by_cases h2 : m a = 2
  · rw [if_pos h2, if_pos h2]
    rw [if_pos h2] at hreads
    rw [hreads (a + 2) (by simp), hreads (a + 3) (by simp)]
  · rw [if_neg h2, if_neg h2]
    rw [if_neg h2] at hreads
    by_cases h3 : m a = 3 ∧ optlen = 3
    · rw [if_pos h3, if_pos h3]
      rw [if_pos h3] at hreads
      rw [hreads (a + 2) (by simp)]
    · rw [if_neg h3, if_neg h3]

/-- Nothing else has an influence on the outcome. -/
theorem tcpParseOptions_congr {m m' : Nat → Byte} (fuel a len : Nat) (o : TcpOptions)
    (h : ∀ i ∈ inspected m fuel a len, m i = m' i) :
    tcpParseOptions m fuel a len o = tcpParseOptions m' fuel a len o := by
  fun_induction tcpParseOptions m fuel a len o with
  | case1 => rw [tcpParseOptions]
  | case2 => rfl
  | case3 fuel a len o h0 =>
    rw [tcpParseOptions, ← h a (by simp [inspected, h0]), if_pos h0]
  | case4 fuel a len o h0 h1 ih =>
    simp only [inspected, if_neg h0, if_pos h1, List.forall_mem_cons] at h
    rw [tcpParseOptions, ← h.1, if_neg h0, if_pos h1]
    exact ih h.2
  | case5 fuel a len o h0 h1 hlen =>
    simp only [inspected, if_neg h0, if_neg h1, if_pos hlen] at h
    rw [tcpParseOptions, ← h a (by simp), if_neg h0, if_neg h1, if_pos hlen]
  | case6 fuel a len o h0 h1 hlen optlen hcut =>
    simp only [inspected, if_neg h0, if_neg h1, if_neg hlen] at h
    rw [if_pos hcut] at h
    rw [tcpParseOptions, ← h a (by simp), if_neg h0, if_neg h1, if_neg hlen, ← h (a + 1) (by simp)]
    exact (if_pos hcut).symm
  | case7 fuel a len o h0 h1 hlen optlen hcut ih =>
    simp only [inspected, if_neg h0, if_neg h1, if_neg hlen] at h
    rw [if_neg hcut] at h
    have ha := h a (by simp)
    rw [tcpParseOptions, ← ha, if_neg h0, if_neg h1, if_neg hlen, ← h (a + 1) (by simp),
      ih fun i hi => h i (by simp [optlen, hi]),
      parseOption_congr o ha fun i hi => h i (by simp [optlen, hi])]
    exact (if_neg hcut).symm

/-! ## Parsing -/

variable {m : Nat → Byte} {fuel a len : Nat} {bad : Byte → Nat → Bool}

/-- An option is read inside the area, if there is room for the value of an MSS option. -/
theorem optionReads_within {l : Nat} (h : m a = 2 → 4 ≤ len) (hlen : l ≤ len) :
    ∀ i ∈ optionReads m a l, a ≤ i ∧ i < a + len := by
  intro i hi
  unfold optionReads at hi
  split at hi
  · rename_i h2
    have := h h2
    simp only [List.mem_cons, List.not_mem_nil, or_false] at hi
    omega
  · split at hi
    · rename_i h3
      have := List.mem_singleton.mp hi
      omega
    · cases hi

theorem parseOption_mss {l : Nat} (o : TcpOptions) (h : m a = 2 → 2 ≤ len) :
    (parseOption m a l o).mss = (mssOf (m a, Mem.read m (a + 1 + 1) len)).or o.mss := by
  by_cases h2 : m a = 2
  · obtain ⟨k, rfl⟩ : ∃ k, len = k + 2 := ⟨len - 2, by have := h h2; omega⟩
    simp [parseOption, mssOf, h2, Mem.read_succ]
  · simp only [parseOption, mssOf, if_neg h2, Option.none_or]
    split <;> rfl

/-! ### The options in memory -/

theorem scanUntil_end (h0 : m a = 0) :
    scanUntil bad (fuel + 1) (Mem.read m a (len + 1)) = ([], .finished) := by
  simp only [Mem.read_succ, scanUntil, if_pos h0]

theorem scanUntil_nop (h0 : m a ≠ 0) (h1 : m a = 1) :
    scanUntil bad (fuel + 1) (Mem.read m a (len + 1)) =
      scanUntil bad fuel (Mem.read m (a + 1) len) := by
  simp only [Mem.read_succ, scanUntil, if_neg h0, if_pos h1]

theorem scanUntil_short (h0 : m a ≠ 0) (h1 : m a ≠ 1) :
    scanUntil bad (fuel + 1) (Mem.read m a 1) = ([], .cut) := by
  simp only [Mem.read_succ, Mem.read_zero, scanUntil, if_neg h0, if_neg h1]

theorem scanUntil_option (h0 : m a ≠ 0) (h1 : m a ≠ 1) :
    scanUntil bad (fuel + 1) (Mem.read m a (len + 2)) =
      if len + 2 < (m (a + 1)).toNat then ([], .cut)
      else if bad (m a) (m (a + 1)).toNat then ([], .malformed)
      else
        ((m a, Mem.read m (a + 1 + 1) len) ::
          (scanUntil bad fuel
            (Mem.read m (a + (m (a + 1)).toNat) (len + 2 - (m (a + 1)).toNat))).1,
        (scanUntil bad fuel
          (Mem.read m (a + (m (a + 1)).toNat) (len + 2 - (m (a + 1)).toNat))).2) := by
  have hdrop := Mem.drop_read (m := m) (a := a) (n := len + 2) (k := (m (a + 1)).toNat)
  rw [Mem.read_succ, Mem.read_succ] at hdrop
  simp only [Mem.read_succ, Mem.length_read, scanUntil, if_neg h0, if_neg h1, hdrop]

/-- The loop beside the options it comes to. `fuel` is the number of rounds of both. -/
theorem parse_reached (hfuel : len ≤ fuel) (o : TcpOptions)
    (hend : (reached fuel (Mem.read m a len)).2 ≠ .malformed)
    (hroom : ∀ x ∈ (reached fuel (Mem.read m a len)).1, x.1 = 2 → 2 ≤ x.2.length) :
    ∃ r, tcpParseOptions m fuel a len o = some r ∧
      r.mss = (lastMss (reached fuel (Mem.read m a len)).1).or o.mss ∧
      ∀ i ∈ inspected m fuel a len, a ≤ i ∧ i < a + len := by
  unfold reached at *
  fun_induction tcpParseOptions m fuel a len o with
  | case1 fuel a o => exact ⟨o, rfl, by cases fuel <;> rfl, by simp [inspected]⟩
  | case2 => omega
  | case3 fuel a len o h0 =>
    rw [scanUntil_end h0]
    exact ⟨o, rfl, rfl, by simp [inspected, h0]⟩
  | case4 fuel a len o h0 h1 ih =>
    rw [scanUntil_nop h0 h1] at hend hroom ⊢
    obtain ⟨r, hr, hmss, hin⟩ := ih (by omega) hend hroom
    simp only [inspected, if_neg h0, if_pos h1]
    refine ⟨r, hr, hmss, List.forall_mem_cons.mpr ⟨by omega, fun i hi => ?_⟩⟩
    have := hin i hi
    omega
  | case5 fuel a len o h0 h1 hlen =>
    obtain rfl : len = 0 := by omega
    rw [scanUntil_short h0 h1]
    exact ⟨o, rfl, rfl, by simp [inspected]⟩
  | case6 fuel a len o h0 h1 hlen optlen hcut =>
    obtain ⟨len, rfl⟩ : ∃ l, len = l + 1 := ⟨len - 1, by omega⟩
    rw [scanUntil_option h0 h1, if_pos hcut]
    simp only [inspected, if_neg h0, if_neg h1, if_neg hlen]
    rw [if_pos hcut]
    exact ⟨o, rfl, rfl, by simp⟩
  | case7 fuel a len o h0 h1 hlen optlen hcut ih =>
    obtain ⟨len, rfl⟩ : ∃ l, len = l + 1 := ⟨len - 1, by omega⟩
    rw [scanUntil_option h0 h1, if_neg hcut] at hend hroom ⊢
    by_cases hzero : empty (m a) (m (a + 1)).toNat = true
    · rw [if_pos hzero] at hend
      exact absurd rfl hend
    have hpos : optlen ≠ 0 := fun h => hzero (beq_iff_eq.mpr h)
    simp only [if_neg hzero, List.forall_mem_cons, Mem.length_read] at hend hroom ⊢
    obtain ⟨r, hr, hmss, hin⟩ := ih (by omega) hend hroom.2
    refine ⟨r, hr, ?_, fun i hi => ?_⟩
    · rw [hmss, lastMss, Option.or_assoc, parseOption_mss o hroom.1]
    simp only [inspected, if_neg h0, if_neg h1, if_neg hlen] at hi
    rw [if_neg hcut] at hi
    simp only [List.mem_append, List.mem_cons, List.not_mem_nil, or_false] at hi
    rcases hi with ((rfl | rfl) | hi) | hi
    · omega
    · omega
    · exact optionReads_within (fun h2 => by have := hroom.1 h2; omega) (Nat.le_of_not_lt hcut) i hi
    · have := hin i hi
      omega

/-- Without a malformed option, the options are all that the code comes to. -/
theorem reached_eq (fuel : Nat) (bs : List Byte) (h : (scan fuel bs).2 ≠ .malformed) :
    reached fuel bs = scan fuel bs ∧ ∀ x ∈ (scan fuel bs).1, x.1 = 2 → 2 ≤ x.2.length := by
  unfold reached scan at *
  fun_induction scanUntil malformed fuel bs with
  | case1 => exact ⟨rfl, by simp⟩
  | case2 => exact ⟨rfl, by simp⟩
  | case3 => exact ⟨rfl, by simp⟩
  | case4 fuel bs h0 ih =>
    simp only [scanUntil, if_neg h0, if_true]
    exact ih h
  | case5 fuel kind h0 h1 =>
    simp only [scanUntil, if_neg h0, if_neg h1]
    exact ⟨trivial, by simp⟩
  | case6 fuel kind h0 h1 optlen body hcut =>
    simp only [scanUntil, if_neg h0, if_neg h1, if_pos hcut]
    exact ⟨trivial, by simp⟩
  | case7 => exact absurd rfl h
  | case8 fuel kind h0 h1 optlen body hcut hbad r ih =>
    obtain ⟨heq, hroom⟩ := ih h
    simp only [malformed, Bool.or_eq_true, decide_eq_true_eq, Bool.and_eq_true, beq_iff_eq,
      bne_iff_ne, not_or, not_and, not_not] at hbad
    have hne : ¬empty kind optlen.toNat = true := by
      simp only [empty, beq_iff_eq]
      omega
    simp only [scanUntil, if_neg h0, if_neg h1, if_neg hcut, if_neg hne, List.forall_mem_cons]
    refine ⟨by rw [heq], fun h2 => ?_, hroom⟩
    have := hbad.2 h2
    omega

/-- What lies behind an area without a malformed option has no influence on what is parsed. -/
theorem parsed_by_area {m' : Nat → Byte} (o : TcpOptions)
    (h : (scan len (Mem.read m a len)).2 ≠ .malformed)
    (hsame : ∀ i, a ≤ i → i < a + len → m i = m' i) :
    tcpParseOptions m len a len o = tcpParseOptions m' len a len o := by
  obtain ⟨heq, hroom⟩ := reached_eq len _ h
  obtain ⟨r, -, -, hin⟩ := parse_reached (Nat.le_refl len) o (heq ▸ h) (heq ▸ hroom)
  exact tcpParseOptions_congr len a len o fun i hi => hsame i (hin i hi).1 (hin i hi).2

theorem parsed_by_area_four : tcpParseOptions (fun i => [2, 4, 5, 180].getD i 0) 4 0 4 ⟨none, none⟩ =
    tcpParseOptions (fun i => [2, 4, 5, 180].getD i 9) 4 0 4 ⟨none, none⟩ :=
  parsed_by_area ⟨none, none⟩ (by decide) (by decide)

end Mios.Net
