import Mios.Kernel.EventRing
import Mios.Lib.Run

/-! Times of the event log. The tail carries a time and every entry the time since the one before
it, so the time of an entry is a sum from the tail on. It is the time of its log call as long as no
call comes with a time before that of the newest entry. -/

namespace Mios.EventLog

open Lib List

variable {s : LogSize} {ef : Fifo} {e : Entry} {es es₁ es₂ : List Entry} {more : List Byte}

/-! ## The retained entries -/

/-- Where the entries are. -/
def positions : Nat → List Entry → List Nat
  | _, [] => []
  | p, e :: es => p :: positions (p + e.size) es

theorem positions_append (p : Nat) (es₁ es₂ : List Entry) :
    positions p (es₁ ++ es₂) = positions p es₁ ++ positions (p + (flat es₁).length) es₂ := by
  induction es₁ generalizing p with
  | nil => rfl
  | cons e es₁ ih =>
    rw [cons_append, positions, positions, ih, flat_cons, length_append,
      Entry.length_bytes, Nat.add_assoc]
    rfl

theorem le_of_mem_positions {p q : Nat} (h : q ∈ positions p es) : p ≤ q := by
  induction es generalizing p with
  | nil => cases h
  | cons e es ih =>
    rcases mem_cons.mp h with rfl | h
    · exact le_rfl
    · exact Nat.le_trans (Nat.le_add_right _ _) (ih h)

theorem lt_of_mem_positions {p q : Nat} (h : q ∈ positions p es) : q < p + (flat es).length := by
  induction es generalizing p with
  | nil => cases h
  | cons e es ih =>
    have hpos := e.size_pos
    rw [flat_cons, length_append, Entry.length_bytes]
    rcases mem_cons.mp h with rfl | h
    · omega
    · have := ih h
      omega

theorem filter_positions (p : Nat) (es₁ es₂ : List Entry) :
    (positions p (es₁ ++ es₂)).filter (· < p + (flat es₁).length) = positions p es₁ := by
  rw [positions_append, filter_append, filter_eq_self.mpr, filter_eq_nil_iff.mpr,
    append_nil]
  · intro q hq
    have := le_of_mem_positions hq
    simpa using this
  · intro q hq
    simpa using lt_of_mem_positions hq

theorem Content.walk {fuel : Nat} (h : Content s ef (es₁ ++ es₂) more)
    (hfuel : (flat es₂).length ≤ fuel) : ef.walk s fuel (ef.tail + (flat es₁).length) =
      positions (ef.tail + (flat es₁).length) es₂ := by
  induction es₂ generalizing es₁ fuel with
  | nil =>
    have hhead := h.head
    rw [append_nil] at hhead
    cases fuel with
    | zero => rfl
    | succ fuel => rw [Fifo.walk, if_pos hhead.symm, positions]
  | cons e es₂ ih =>
    have hpos := e.size_pos
    have hhead := h.head
    have hlen := (Content.entry_at es₁ h).len
    rw [flat_append, flat_cons] at hhead
    rw [flat_cons] at hfuel
    simp only [length_append, Entry.length_bytes] at hhead hfuel
    cases fuel with
    | zero => omega
    | succ fuel =>
      have hrest := @ih (es₁ ++ [e]) fuel (by rwa [append_assoc]) (by omega)
      rw [length_flat_snoc, ← Nat.add_assoc] at hrest
      rw [Fifo.walk, if_neg (by omega), hlen, hrest, positions]

theorem Content.retained (h : Content s ef es more) : ef.retained s = positions ef.tail es := by
  rw [Fifo.retained, h.used]
  exact @Content.walk s ef [] es more _ h le_rfl

theorem map_positions {β : Type} {f : Nat → β} {g : Entry → β} {p : Nat}
    (h : ∀ es₁ e es₂, es = es₁ ++ e :: es₂ → f (p + (flat es₁).length) = g e) :
    (positions p es).map f = es.map g := by
  induction es generalizing p with
  | nil => rfl
  | cons e es ih =>
    have hrest : (positions (p + e.size) es).map f = es.map g := by
      refine ih fun es₁ e' es₂ heq => ?_
      have hat := h (e :: es₁) e' es₂ (by rw [heq, cons_append])
      rwa [flat_cons, length_append, Entry.length_bytes, ← Nat.add_assoc] at hat
    rw [positions, map_cons, map_cons, hrest]
    exact congrArg (· :: _) (h [] e es rfl)

/-- What is read at the first positions is what the first entries are. -/
theorem Content.map_positions {β : Type} {f : Nat → β} {g : Entry → β}
    (h : Content s ef (es₁ ++ es₂) more) (hfg : ∀ p e, At s ef p e → f p = g e) :
    (positions ef.tail es₁).map f = es₁.map g := by
  refine EventLog.map_positions fun a e b heq => ?_
  rw [heq, append_assoc, cons_append] at h
  exact hfg _ e (Content.entry_at a h)

/-! ## Times -/

/-- The sum of the times of some entries. -/
def span (es : List Entry) : Nat := (es.map Entry.delta).sum

theorem span_append (es₁ es₂ : List Entry) : span (es₁ ++ es₂) = span es₁ + span es₂ := by
  rw [span, map_append, sum_append]
  rfl

theorem span_cons (e : Entry) (es : List Entry) : span (e :: es) = e.delta + span es :=
  sum_cons

theorem Content.sum_deltas (h : Content s ef (es₁ ++ es₂) more) :
    ((positions ef.tail es₁).map (ef.evfifoReadDeltaTs s)).sum = span es₁ :=
  congrArg List.sum (h.map_positions fun _ _ hat => hat.delta)

theorem Content.timeOf (h : Content s ef (es₁ ++ e :: es₂) more) :
    ef.timeOf s (ef.tail + (flat es₁).length) = ef.tsTail + span es₁ + e.delta := by
  rw [Fifo.timeOf, h.retained, filter_positions, h.sum_deltas, (Content.entry_at es₁ h).delta]

/-- The times of entries, counted from a time on. -/
def times : Nat → List Entry → List Nat
  | _, [] => []
  | t, e :: es => (t + e.delta) :: times (t + e.delta) es

theorem times_append (t : Nat) (es₁ es₂ : List Entry) :
    times t (es₁ ++ es₂) = times t es₁ ++ times (t + span es₁) es₂ := by
  induction es₁ generalizing t with
  | nil => rfl
  | cons e es₁ ih =>
    rw [cons_append, times, times, ih, span_cons, Nat.add_assoc]
    rfl

theorem Content.times (h : Content s ef (es₁ ++ es₂) more) :
    (positions (ef.tail + (flat es₁).length) es₂).map (ef.timeOf s) =
      times (ef.tsTail + span es₁) es₂ := by
  induction es₂ generalizing es₁ with
  | nil => rfl
  | cons e es₂ ih =>
    have hrest := @ih (es₁ ++ [e]) (by rwa [append_assoc])
    rw [length_flat_snoc, ← Nat.add_assoc, span_append, ← Nat.add_assoc] at hrest
    rw [positions, map_cons, h.timeOf, hrest]
    rfl

/-! ## The time base -/

/-- Not before the newest entry, or its own beginning in an empty log, and less than 2^56
microseconds after it. -/
def InOrder (ef : Fifo) : Event → Prop
  | .log _ begun now _ => ef.base begun ≤ now ∧ now < ef.base begun + 2 ^ 56
  | _ => True

/-- The times from the tail on are those of the log calls. -/
structure Timed (ef : Fifo) (es : List Entry) : Prop where
  num : ef.seqTail + es.length = ef.logged.length
  sum : ef.tsTail + span es = ef.tsHead
  times : times ef.tsTail es = (ef.logged.drop ef.seqTail).map Record.time

theorem Timed.kept (s : LogSize) (head : Nat) : Kept s Timed head := by
  refine ⟨?_, fun _ _ _ h => ⟨h.num, h.sum, h.times⟩⟩
  intro ef e es more _ _ _ h
  have hnum := h.num
  have hsum := h.sum
  rw [length_cons] at hnum
  rw [span_cons] at hsum
  refine ⟨?_, ?_, ?_⟩
  · show ef.seqTail + 1 + es.length = ef.logged.length
    omega
  · show ef.tsTail + e.delta + span es = ef.tsHead
    omega
  · have htimes := congrArg List.tail h.times
    rw [← map_tail, tail_drop] at htimes
    exact htimes

theorem Timed.published {ef' : Fifo} {r : Record} (h : Timed ef' es) (ht : ef'.tsHead ≤ r.time) :
    Timed (ef'.published (entryOf s r ef'.tsHead) r) (es ++ [entryOf s r ef'.tsHead]) := by
  have hnum := h.num
  refine ⟨?_, ?_, ?_⟩
  · show ef'.seqTail + (es ++ [_]).length = (ef'.logged ++ [r]).length
    rw [length_append, length_append, length_singleton, length_singleton]
    omega
  · show ef'.tsTail + span (es ++ [_]) = r.time
    rw [span_append, ← Nat.add_assoc, h.sum]
    exact Nat.add_sub_of_le ht
  · show EventLog.times ef'.tsTail (es ++ [_]) = ((ef'.logged ++ [r]).drop ef'.seqTail).map _
    rw [times_append, h.times, h.sum, drop_append_of_le_length (by omega), map_append]
    refine congrArg (_ ++ [·]) ?_
    exact Nat.add_sub_of_le ht

theorem timed_step {ev : Event} (hok : InOrder ef ev) (h : ∃ es, Content s ef es [] ∧ Timed ef es) :
    ∃ es, Content s (step s ef ev) es [] ∧ Timed (step s ef ev) es := by
  obtain ⟨es, hc, ht⟩ := h
  cases ev with
  | log level begun now chunks =>
    obtain ⟨hle, hlt⟩ := hok
    refine hc.evlog rfl (Timed.kept s ef.head) ht ?_ (by omega) ?_
    · intro hempty
      obtain rfl := hc.eq_nil hempty
      exact ⟨ht.num, rfl, ht.times⟩
    · intro ef' es' h' _ htime _
      rw [← htime] at hle ⊢
      exact h'.published hle
  | register kind drops | remove i => exact ⟨es, { hc with }, { ht with }⟩
  | follow i ok =>
    rw [step]
    split
    · exact ⟨es, hc, ht⟩
    · exact ⟨es, { hc with }, { ht with }⟩

theorem initial_content (s : LogSize) : Content s initial [] [] :=
  ⟨(forall_mem_nil _), rfl, rfl, Nat.zero_le _⟩

/-- As long as no log call comes with a time before that of the newest entry, or 2^56 microseconds
after it, the times from the tail on end with that of the head and are those of the calls. -/
theorem time_base (s : LogSize) {evs : List Event} {ef : Fifo}
    (h : Run (Guarded InOrder fun u e v => step s u e = v) initial evs ef) :
    ef.tsTail + ((ef.retained s).map (ef.evfifoReadDeltaTs s)).sum = ef.tsHead ∧
      (ef.retained s).map (ef.timeOf s) = (ef.logged.drop ef.seqTail).map Record.time := by
  obtain ⟨es, hc, ht⟩ := h.invariant (I := fun ef => ∃ es, Content s ef es [] ∧ Timed ef es)
    ⟨[], initial_content s, rfl, rfl, rfl⟩ (by
      rintro u ev v hu ⟨hok, rfl⟩
      exact timed_step hok hu)
  have htimes := @Content.times s ef [] es [] hc
  rw [hc.retained]
  rw [← append_nil es] at hc
  refine ⟨by rw [hc.sum_deltas, ht.sum], ?_⟩
  rw [← ht.times]
  exact htimes

/-- Without a configuration of its own a platform has a log of 256 bytes. -/
def defaultSize : LogSize := ⟨256, by decide, by decide, by decide⟩

def hello (now : Nat) : Event := .log .info now now [[0x68, 0x65], [0x6c, 0x6c, 0x6f]]

/-- A log of 32 bytes has no room for four of them. -/
def smallSize : LogSize := ⟨32, by decide, by decide, by decide⟩

def fourHellos : List Event := [hello 1000, hello 1500, hello 2000, hello 2500]

def hellos : Fifo := fourHellos.foldl (step smallSize) initial

theorem time_base_hellos : hellos.seqTail = 1 ∧ hellos.tsTail + ((hellos.retained smallSize).map
      (hellos.evfifoReadDeltaTs smallSize)).sum = hellos.tsHead ∧
    (hellos.retained smallSize).map (hellos.timeOf smallSize) = [1500, 2000, 2500] := by
  have hrun : Run (Guarded InOrder fun u e v => step smallSize u e = v) initial fourHellos hellos := by
    refine .snoc (.snoc (.snoc (.snoc (.nil initial) ⟨?_, rfl⟩) ⟨?_, rfl⟩) ⟨?_, rfl⟩) ⟨?_, rfl⟩
    all_goals
      show _ ≤ _ ∧ _ < _
      decide +kernel
  obtain ⟨hsum, htimes⟩ := time_base smallSize hrun
  exact ⟨by decide +kernel, hsum, htimes.trans (by decide +kernel)⟩

/-- A call took its time before another one, but comes after it: its own entry counts as zero, the
head goes back, and the next entry is later than it was. -/
theorem time_base_shifted : ∃ ef, Run (fun u e v => step defaultSize u e = v) initial
        [hello 1000, hello 500, hello 1500] ef ∧
      ef.tsTail + ((ef.retained defaultSize).map (ef.evfifoReadDeltaTs defaultSize)).sum = 2000 ∧
      ef.tsHead = 1500 ∧
      (ef.retained defaultSize).map (ef.timeOf defaultSize) = [1000, 1000, 2000] ∧
      ef.logged.map Record.time = [1000, 500, 1500] :=
  ⟨_, run_foldl _ _ _, by decide +kernel⟩

end Mios.EventLog
