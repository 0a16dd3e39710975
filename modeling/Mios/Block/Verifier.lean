import Mios.Block

/-! The verifying block device (`util/block.c`): what is written is read back, and what is read is
read twice. The parent may answer anything. Hex dumps are left out. -/

namespace Mios.Block

open Lib

variable {w : Nat}

def errNoMemory : Int := -29

/-- `verifier_t`; of its flags `BLOCK_VERIFIER_PANIC_ON_ERR`. -/
structure Verifier where
  panicOnErr : Bool
  deriving DecidableEq, Repr

namespace Verifier

/-- The calls of the verifier, which returns nothing where it panics. -/
abbrev Verified (w : Nat) := Prog (Call w) Reply (Option Reply)

variable (v : Verifier)

/-- An error, with what is in the buffer of the caller. -/
def fail (err : Int) (data : List (BitVec 8)) : Verified w :=
  .done (if v.panicOnErr then none else some ⟨err, data⟩)

/-- `memcmp` finds no difference. -/
def same (length : BitVec w) (a b : List (BitVec 8)) : Bool :=
  a.take length.toNat == b.take length.toNat

/-- `alloc` says whether there is memory for the copy. -/
def write (alloc : Bool) (block offset : BitVec w) (data : List (BitVec 8)) (length : BitVec w) :
    Verified w :=
  .call (.write block offset data length) fun r =>
    if r.err ≠ 0 then v.fail r.err []
    else if !alloc then v.fail errNoMemory []
    else
      .call (.read block offset length) fun copy =>
        if copy.err ≠ 0 then v.fail copy.err []
        -- a difference is answered with the error of the read, which is 0 here
        else if !same length copy.data data then v.fail copy.err []
        else .done (some ⟨0, []⟩)

def read (alloc : Bool) (block offset length : BitVec w) : Verified w :=
  .call (.read block offset length) fun r =>
    if r.err ≠ 0 then v.fail r.err r.data
    else if !alloc then v.fail errNoMemory r.data
    else
      .call (.read block offset length) fun copy =>
        if copy.err ≠ 0 then v.fail copy.err r.data
        else if !same length copy.data r.data then v.fail copy.err r.data
        else .done (some ⟨0, r.data⟩)

def serve (alloc : Bool) : Call w → Verified w
  | .write block offset data length => v.write alloc block offset data length
  | .read block offset length => v.read alloc block offset length
  | c => .call c fun r => .done (some r)

/-- A success that came about by these calls and answers has been verified. -/
def Verifies (cs : List (Call w)) (rs : List Reply) (a : Reply) : Call w → Prop
  | .write block offset data length => cs = [.write block offset data length,
      .read block offset length] ∧ ∃ r copy, rs = [r, copy] ∧
        copy.data.take length.toNat = data.take length.toNat
  | .read block offset length => cs = [.read block offset length, .read block offset length] ∧
      ∃ r copy, rs = [r, copy] ∧ copy.data.take length.toNat = r.data.take length.toNat ∧
        a.data = r.data
  | _ => True

variable {v} {length : BitVec w} {data : List (BitVec 8)} {cs : List (Call w)} {rs : List Reply}
  {a : Reply}

/-- A verifier that panics returns no error. -/
theorem of_not_fail (hpanic : v.panicOnErr = true) {b : Prop} [Decidable b] {err : Int}
    {p : Verified w} (h : (if b then v.fail err data else p).feed rs = some (cs, some a)) :
    ¬b ∧ p.feed rs = some (cs, some a) := by
  split at h
  · rw [fail, hpanic, if_pos rfl] at h
    cases rs <;> cases h
  · exact ⟨‹_›, h⟩

/-- The second call and the comparison that both functions end with. -/
theorem of_copy (hpanic : v.panicOnErr = true) {c : Call w} {expected : List (BitVec 8)}
    {ok : Reply} (h : (Prog.call c fun copy : Reply =>
      if copy.err ≠ 0 then v.fail copy.err data
      else if !same length copy.data expected then v.fail copy.err data
      else .done (some ok)).feed rs = some (cs, some a)) :
    cs = [c] ∧ ∃ copy, rs = [copy] ∧
      copy.data.take length.toNat = expected.take length.toNat ∧ a = ok := by
  obtain ⟨copy, rs', cs', rfl, rfl, hcopy⟩ := Prog.of_feed_call h
  obtain ⟨-, hok⟩ := of_not_fail hpanic hcopy
  obtain ⟨hsame, hdone⟩ := of_not_fail hpanic hok
  cases rs' with
  | nil =>
    cases hdone
    exact ⟨rfl, copy, rfl, by simpa [same] using hsame, rfl⟩
  | cons r rs' => cases hdone

/-- A verifier that panics on errors answers only what it verified. -/
theorem verifies (hpanic : v.panicOnErr = true) {alloc : Bool} {c : Call w}
    (h : (v.serve alloc c).feed rs = some (cs, some a)) : Verifies cs rs a c := by
  cases c with
  | write block offset data length =>
    obtain ⟨r, rs', cs', rfl, rfl, hfirst⟩ := Prog.of_feed_call h
    obtain ⟨-, hok⟩ := of_not_fail hpanic hfirst
    obtain ⟨-, hcopy⟩ := of_not_fail hpanic hok
    obtain ⟨rfl, copy, rfl, hsame, -⟩ := of_copy hpanic hcopy
    exact ⟨rfl, r, copy, rfl, hsame⟩
  | read block offset length =>
    obtain ⟨r, rs', cs', rfl, rfl, hfirst⟩ := Prog.of_feed_call h
    obtain ⟨-, hok⟩ := of_not_fail hpanic hfirst
    obtain ⟨-, hcopy⟩ := of_not_fail hpanic hok
    obtain ⟨rfl, copy, rfl, hsame, rfl⟩ := of_copy hpanic hcopy
    exact ⟨rfl, r, copy, rfl, hsame, rfl⟩
  | erase block count | ctrl op => trivial

/-- Every success has been verified, whatever the parent answers, if and only if the verifier
panics on errors. -/
theorem verified_iff (hw : 0 < w) (v : Verifier) :
    (∀ alloc (c : Call w) cs rs a, a.err = 0 → (v.serve alloc c).feed rs = some (cs, some a) →
      Verifies cs rs a c) ↔ v.panicOnErr = true := by
  constructor
  · intro h
    by_cases hflag : v.panicOnErr = true
    · exact hflag
    -- otherwise a byte that is not what was written is answered with success
    have hone (b : BitVec 8) : [b].take (1 : BitVec w).toNat = [b] := by
      rw [BitVec.ofNat_eq_ofNat, BitVec.toNat_one hw, List.take_succ_cons, List.take_zero]
    have hfeed : (v.serve true (.write 0 0 [7] 1)).feed [⟨0, []⟩, ⟨0, [3]⟩] =
        some ([.write 0 0 [7] 1, .read (0 : BitVec w) 0 1], some ⟨0, []⟩) := by
      simp [serve, write, Prog.feed, fail, hflag]
    obtain ⟨-, r, copy, hrs, hsame⟩ := h true (.write 0 0 [7] 1) _ _ ⟨0, []⟩ rfl hfeed
    cases hrs
    rw [hone, hone] at hsame
    exact absurd hsame (by decide)
  · intro hpanic alloc c cs rs a _ h
    exact verifies hpanic h

/-- Two equal reads of two bytes. -/
theorem verified_iff_size32 : ((⟨true⟩ : Verifier).serve true (.read (5 : BitVec 32) 4 2)).feed
        [⟨0, [7, 1]⟩, ⟨0, [7, 1]⟩] = some ([.read 5 4 2, .read 5 4 2], some ⟨0, [7, 1]⟩) ∧
      Verifies [.read 5 4 2, .read 5 4 2] [⟨0, [7, 1]⟩, ⟨0, [7, 1]⟩] ⟨0, [7, 1]⟩
        (.read (5 : BitVec 32) 4 2) :=
  ⟨rfl, (verified_iff (by decide) ⟨true⟩).mpr rfl true _ _ _ _ rfl rfl⟩

/-- Two reads of two bytes that differ are answered with success. -/
theorem answers_unverified : ((⟨false⟩ : Verifier).serve true (.read (5 : BitVec 32) 4 2)).feed
        [⟨0, [7, 1]⟩, ⟨0, [3, 1]⟩] = some ([.read 5 4 2, .read 5 4 2], some ⟨0, [7, 1]⟩) ∧
      ¬Verifies [.read 5 4 2, .read 5 4 2] [⟨0, [7, 1]⟩, ⟨0, [3, 1]⟩] ⟨0, [7, 1]⟩
        (.read (5 : BitVec 32) 4 2) := by
  refine ⟨rfl, ?_⟩
  rintro ⟨-, r, copy, hrs, hsame, -⟩
  cases hrs
  exact absurd hsame (by decide)

end Verifier

end Mios.Block
