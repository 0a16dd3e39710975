import Mathlib.Logic.Relation

/-! Runs of a labelled transition relation, with the induction rules every
state machine of the development uses: an invariant kept by one step holds along
a run, an execution of a step function is a run, and states that simulate each
other are observed alike. -/

namespace Mios.Lib

variable {σ ε : Type}

/-- `Run step s es t`: from `s` the events `es`, in this order, lead to `t`. -/
inductive Run (step : σ → ε → σ → Prop) : σ → List ε → σ → Prop
  | nil (s : σ) : Run step s [] s
  | snoc {s t u : σ} {es : List ε} {e : ε} :
      Run step s es t → step t e u → Run step s (es ++ [e]) u

/-- The steps of `step` whose state and event meet `ok`. -/
def Guarded (ok : σ → ε → Prop) (step : σ → ε → σ → Prop) (s : σ) (e : ε) (t : σ) : Prop :=
  ok s e ∧ step s e t

namespace Run

variable {step : σ → ε → σ → Prop}

variable {s t : σ} {es : List ε}

/-- What every step preserves holds at the end of every run. -/
theorem invariant {I : σ → Prop} (h : Run step s es t) (h0 : I s)
    (hstep : ∀ u e v, I u → step u e v → I v) : I t := by
  induction h with
  | nil => exact h0
  | snoc _ hs ih => exact hstep _ _ _ ih hs

theorem single {e : ε} (h : step s e t) : Run step s [e] t := by
  simpa using snoc (nil s) h

theorem trans {s t u : σ} {es fs : List ε} (h : Run step s es t) (h' : Run step t fs u) :
    Run step s (es ++ fs) u := by
  induction h' with
  | nil => simpa using h
  | snoc _ hs ih => rw [← List.append_assoc]; exact snoc ih hs

/-- Each step taken may be replaced by another kind of step. -/
theorem mono_mem {step' : σ → ε → σ → Prop} (h : Run step s es t)
    (hstep : ∀ u e v, e ∈ es → step u e v → step' u e v) : Run step' s es t := by
  induction h with
  | nil => exact nil _
  | snoc _ hs ih =>
    refine snoc (ih fun u e v he => hstep u e v (List.mem_append_left _ he)) ?_
    exact hstep _ _ _ (List.mem_append_right _ (.head _)) hs

theorem mono {step' : σ → ε → σ → Prop} (h : Run step s es t)
    (hstep : ∀ u e v, step u e v → step' u e v) : Run step' s es t :=
  h.mono_mem fun u e v _ => hstep u e v

end Run

/-- A step that was possible. -/
theorem of_ite_some {α : Type} {p : Prop} [Decidable p] {a b : α}
    (h : (if p then some a else none) = some b) : p ∧ a = b := by
  obtain ⟨hp, h⟩ := Option.ite_none_right_eq_some.mp h
  exact ⟨hp, Option.some.inj h⟩

theorem ok_of_toOption {δ α : Type} {r : Except δ α} {a : α} (h : r.toOption = some a) :
    r = .ok a := by
  cases r with
  | error e => cases h
  | ok b => exact congrArg _ (Option.some.inj h)

/-- A step by a function that may fail. -/
theorem ok_of_toOption_map {δ α β : Type} {r : Except δ α} {f : α → β} {b : β}
    (h : r.toOption.map f = some b) : ∃ a, r = .ok a ∧ b = f a := by
  obtain ⟨a, ha, rfl⟩ := Option.map_eq_some_iff.mp h
  exact ⟨a, ok_of_toOption ha, rfl⟩

/-- Execute a list of events of a partial step function. -/
def exec (step : σ → ε → Option σ) : σ → List ε → Option σ
  | s, [] => some s
  | s, e :: es => (step s e).bind fun t => exec step t es

/-- An execution of the step function is a run of its graph. -/
theorem run_of_exec {step : σ → ε → Option σ}
    (h : exec step s es = some t) : Run (fun u e v => step u e = some v) s es t := by
  induction es generalizing s with
  | nil =>
    simp only [exec, Option.some.injEq] at h
    subst h
    exact .nil s
  | cons e es ih =>
    simp only [exec, Option.bind_eq_some_iff] at h
    obtain ⟨u, hu, hrest⟩ := h
    have hfirst : Run (fun u e v => step u e = some v) s [e] u := .single hu
    exact hfirst.trans (ih hrest)

theorem exists_run {step : σ → ε → Option σ} {s : σ} {P : σ → Prop}
    (h : ∃ t ∈ exec step s es, P t) : ∃ t, Run (fun u e v => step u e = some v) s es t ∧ P t := by
  obtain ⟨t, ht, hp⟩ := h
  exact ⟨t, run_of_exec ht, hp⟩

/-- Take a step only if it meets `ok`. -/
def guardStep (ok : σ → ε → Prop) [∀ s e, Decidable (ok s e)] (step : σ → ε → Option σ)
    (s : σ) (e : ε) : Option σ :=
  if ok s e then step s e else none

theorem exists_guarded_run {ok : σ → ε → Prop} [∀ s e, Decidable (ok s e)]
    {step : σ → ε → Option σ} {s : σ} {es : List ε} {P : σ → Prop}
    (h : ∃ t ∈ exec (guardStep ok step) s es, P t) :
    ∃ t, Run (Guarded ok fun u e v => step u e = some v) s es t ∧ P t := by
  obtain ⟨t, hrun, hp⟩ := exists_run h
  refine ⟨t, hrun.mono ?_, hp⟩
  intro u e v hstep
  simp only [guardStep] at hstep
  split at hstep
  · exact ⟨‹_›, hstep⟩
  · cases hstep

/-- The events of a total step function, one after the other. -/
theorem run_foldl (step : σ → ε → σ) (s : σ) (es : List ε) :
    Run (fun u e v => step u e = v) s es (es.foldl step s) := by
  induction es generalizing s with
  | nil => exact .nil s
  | cons e es ih =>
    have hfirst : Run (fun u e v => step u e = v) s [e] (step s e) := .single rfl
    exact hfirst.trans (ih (step s e))

/-- Every event is taken in a state that meets `ok`. -/
def okAlong (ok : σ → ε → Bool) (step : σ → ε → σ) : σ → List ε → Bool
  | _, [] => true
  | s, e :: es => ok s e && okAlong ok step (step s e) es

theorem guarded_run_foldl (ok : σ → ε → Bool) (step : σ → ε → σ) (s : σ) (es : List ε)
    (h : okAlong ok step s es = true) :
    Run (Guarded (fun s e => ok s e = true) fun u e v => step u e = v) s es (es.foldl step s) := by
  induction es generalizing s with
  | nil => exact .nil s
  | cons e es ih =>
    simp only [okAlong, Bool.and_eq_true] at h
    have hfirst : Run (Guarded (fun s e => ok s e = true) fun u e v => step u e = v) s [e]
        (step s e) := .single ⟨h.1, rfl⟩
    exact hfirst.trans (ih (step s e) h.2)

/-! ## Observations -/

section Trace

variable {η ο : Type} {step : σ → ε → Except η σ} {obs : σ → ο}

/-- What is observed of a list of events, up to the first one that fails. -/
def trace (step : σ → ε → Except η σ) (obs : σ → ο) : σ → List ε → List (Except η ο)
  | _, [] => []
  | s, e :: es =>
      match step s e with
      | .error h => [.error h]
      | .ok t => .ok (obs t) :: trace step obs t es

theorem trace_cons {e : ε} (h : step s e = .ok t) (es : List ε) :
    trace step obs s (e :: es) = .ok (obs t) :: trace step obs t es := by
  simp only [trace, h]

theorem trace_congr {e : ε} (h : step s e = step t e) (es : List ε) :
    trace step obs s (e :: es) = trace step obs t (e :: es) := by
  simp only [trace, h]

/-- Related states that do the same, or step to related states of the same appearance, are
observed alike for ever. -/
theorem trace_eq_of_sim {R : σ → σ → Prop} (hR : ∀ s t e, R s t → step s e = step t e ∨
      ∃ s' t', step s e = .ok s' ∧ step t e = .ok t' ∧ obs s' = obs t' ∧ R s' t')
    {s t : σ} (h : R s t) (es : List ε) : trace step obs s es = trace step obs t es := by
  induction es generalizing s t with
  | nil => rfl
  | cons e es ih =>
    rcases hR s t e h with heq | ⟨s', t', hs, ht, hobs, h'⟩
    · exact trace_congr heq es
    · rw [trace_cons hs, trace_cons ht, hobs, ih h']

end Trace

end Mios.Lib
