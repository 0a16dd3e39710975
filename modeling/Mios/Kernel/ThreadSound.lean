import Mios.Kernel.ThreadRefs

/-! What holds in every run of the threads and the scheduler, as long as nobody holds a
reference to a detached thread that exits, nobody gives a reference back while the joiner
gives back its own, and the count of references fits its byte. -/

namespace Mios.Kernel

open Function Lib Option Sched

namespace World

variable {w : World}

/-! ## Switching -/

/-- The current thread is put back on its ready queue. -/
theorem Inv.requeue (h : w.Inv) : { w with sched := w.sched.requeue }.Inv := by
  unfold Sched.requeue
  split
  · rename_i hs
    have hl := h.ok.link_eq_none (t := w.sched.current) (by simp [hs]) (by simp [hs])
    refine h.setSched (h.ok.readyqueueInsert (by simp [hs]) hl) rfl rfl (by simp [hl]) ?_
      (fun ht => absurd ht (h.not_until_of_running hs))
    cases h.good w.sched.current with
    | idle hi => exact .idle { hi with state := .inr (.inl rfl) }
    | live hl => exact .live { hl with state := .inl rfl }
    | unused hv | task hv | mux hv | zombie hv => simpa [view, hs] using hv.state
    | reaped hv => simpa [view, hs] using hv.stage
  · exact h

theorem Inv.idle_view (h : w.Inv) : (w.view idle).Idle := by
  cases h.good idle with
  | idle hi => exact hi
  | unused hv | task hv | mux hv | live hv | zombie hv | reaped hv =>
    cases hv.kind.symm.trans ((h.idle idle).mpr rfl)

theorem Inv.idle_link (h : w.Inv) : (w.sched.task idle).link = none := by
  have hstate := h.idle_view.state
  simp only [view] at hstate
  refine h.ok.link_eq_none ?_ ?_
  all_goals rcases hstate with hs | hs | hs <;> simp [hs]

variable {e : Event} {t : Nat} {s : Sched} {w' w₀ : World}

/-- The record of the task that a round takes: it is off every queue, and a thread has not
exited. -/
theorem Inv.picked (h : w.Inv) (hp : w.sched.Picked t s) :
    (w.sched.task t).link = none ∧ (w.sched.task t).state ≠ .sleeping ∧
    ((w.sched.task t).thread = true → (t = idle ∨ w.kind t = .thread) ∧ ¬ w.exited t ∧
      View.Good { w.view t with task := { w.sched.task t with state := .running } }) ∧
    ((w.sched.task t).thread = false →
      View.Good { w.view t with task := { w.sched.task t with state := .none }, runs := True }) := by
  cases hp with
  | idle hempty =>
    have hi := h.idle_view
    refine ⟨h.idle_link, fun hs => ?_, fun _ => ⟨.inl rfl, hi.exited, ?_⟩, fun hf => ?_⟩
    · simpa [view, hs] using hi.state
    · exact .idle { hi with state := .inr (.inr rfl) }
    · cases hf.symm.trans hi.thread
  | head hready hmax hs hprio =>
    refine ⟨h.ok.link_eq_none (by simp [hs]) (by simp [hs]), by simp [hs], ?_⟩
    cases h.good t with
    | idle hi =>
      exact ⟨fun _ => ⟨.inl ((h.idle t).mp hi.kind), hi.exited,
        .idle { hi with state := .inr (.inr rfl) }⟩, fun hf => by cases hf.symm.trans hi.thread⟩
    | live hl =>
      exact ⟨fun _ => ⟨.inr hl.kind, hl.exited, .live { hl with state := .inr (.inl rfl) }⟩,
        fun hf => by cases hf.symm.trans hl.thread⟩
    | task hv =>
      exact ⟨fun ht => (by cases ht.symm.trans hv.thread), fun _ => .task { hv with state := .inl rfl }⟩
    | reaped hr =>
      refine ⟨fun ht => (by cases ht.symm.trans hr.thread), fun _ => ?_⟩
      have hrec : w.running ≠ some t ∧ w.reclaimed t = 0 := by simpa [view, hs] using hr.stage
      exact .reaped { hr with stage := .inr (.inl ⟨rfl, trivial, hrec.2⟩) }
    | unused hv | mux hv | zombie hv => simpa [view, hs] using hv.state

/-- The task that a round takes becomes the current thread, or is run. -/
theorem Inv.take (h : w.Inv) (hrunning : w.running = none) {s' : Sched}
    (hp : w.sched.Picked t s) (state : TaskState) {running : Option Nat}
    (hok : s'.Ok) (htask : s'.task = update w.sched.task t { w.sched.task t with state := state })
    (hcur : s'.current = idle ∨ w.kind s'.current = .thread)
    (hruns : running = none ∨ running = some t)
    (hgood : View.Good { w.view t with
      task := { w.sched.task t with state := state }, runs := running = some t }) :
    { w with sched := s', running := running }.Inv := by
  obtain ⟨hl, hns, -, -⟩ := h.picked hp
  refine { h with
    ok := hok, sleepers := h.sleepers.update htask (by simp [hl]), current := hcur
    timers := fun u hu => ?_
    good := good_of (t := t) (fun u _ => h.good u) (fun u hu => ?_) ?_ }
  · have hut : u ≠ t := fun hut => hns (hut ▸ (h.timers u hu).1)
    simpa [htask, hut] using h.timers u hu
  · have hr : (running = some u) = (w.running = some u) := by
      rcases hruns with hr | hr
      · simp [hr, hrunning]
      · simp [hr, hrunning, Ne.symm hu]
    simp only [view, htask, update_of_ne hu, hr]
    rfl
  · simp only [view, htask, update_self]
    exact hgood

theorem requeue_thread (s : Sched) (t : Nat) : (s.requeue.task t).thread = (s.task t).thread := by
  unfold requeue
  split
  · by_cases ht : t = s.current
    all_goals simp [readyqueueInsert, ht]
  · rfl

/-- A round of `task_switch` is possible, and keeps the invariant; a thread that it goes on with
has not exited. -/
theorem Inv.round (h : w.Inv) (hrunning : w.running = none) :
    ∃ t s, w.sched.requeue.Switched t s ∧ w.sched.taskSwitch = some (t, s) ∧
      ∃ w', w.round = some w' ∧ w'.sched = s ∧ w'.Inv ∧
        (w'.running = none → w'.sched.current = t ∧ ¬ w'.exited t) := by
  obtain ⟨t, s, hswitch, hsw⟩ := h.ok.taskSwitch
  have hreq := h.requeue
  have hok : s.Ok := hsw.ok hreq.ok h.ok.not_running_requeue hreq.idle_link
  refine ⟨t, s, hsw, hswitch, _, by rw [World.round, hswitch, map_some], rfl, ?_⟩
  rw [← requeue_thread w.sched t]
  cases hsw with
  | @thread s' hp hth =>
    obtain ⟨-, -, hrun, -⟩ := hreq.picked hp
    obtain ⟨hkind, hex, hgood⟩ := hrun hth
    refine ⟨?_, fun _ => ⟨rfl, hex⟩⟩
    simp only [hth, if_true]
    refine hreq.take hrunning hp .running hok ?_ hkind (.inl rfl) ?_
    · simp [switchTo, setState, hp.task_eq]
    · simpa [view, hrunning] using hgood
  | @task s' hp hth =>
    obtain ⟨-, -, -, hrun⟩ := hreq.picked hp
    refine ⟨?_, fun hr => by simp [hth] at hr⟩
    simp only [hth, Bool.false_eq_true, if_false]
    refine hreq.take hrunning hp .none hok ?_ ?_ (.inr rfl) ?_
    · simp [setState, hp.task_eq]
    · rw [setState_current, hp.current_eq]
      exact hreq.current
    · simpa [view] using hrun hth

/-- `t_run` of the task that a round took has returned. -/
theorem Inv.afterRun (h : w.Inv) (hr : w.running = some t) (freed : Bool) :
    { w.afterRun t freed with running := none }.Inv := by
  have hview : ∀ (s : Sched) (rec : Nat → Nat) (u : Nat), u ≠ t →
      s.task u = w.sched.task u → rec u = w.reclaimed u →
      { w with sched := s, reclaimed := rec, running := none }.view u = w.view u := by
    intro s rec u hu hs hrec
    have hrun : (w.running = some u) = False := by simp [hr, Ne.symm hu]
    simp only [view, hrun, hs, hrec]
    simp [exited, refs]
  have hruns : (w.view t).runs := hr
  unfold World.afterRun
  cases h.good t with
  | task hv =>
    have hk : w.kind t = .task := hv.kind
    simp only [hk, reduceCtorEq, if_false]
    exact { h with
      good := good_of (fun u _ => h.good u) (fun u hu => hview w.sched w.reclaimed u hu rfl rfl)
        (.task { hv with }) }
  | reaped hv =>
    have hk : w.kind t = .thread := hv.kind
    have hst : (w.sched.task t).state = .none ∧ w.reclaimed t = 0 := by
      simpa [view, hr] using hv.stage
    simp only [hk, if_true]
    cases freed with
    | true =>
      refine { h with
        good := good_of (fun u _ => h.good u) (fun u hu => hview w.sched _ u hu rfl (by simp [hu]))
          (.reaped { hv with stage := .inr (.inr ⟨hst.1, ?_, ?_⟩) }) }
      · simp [view]
      · simp [view, hst.2]
    | false =>
      have hl := h.ok.link_eq_none (t := t) (by simp [hst]) (by simp [hst])
      refine { h.toFrame.setSched (h.ok.readyqueueInsert (by simp [hst]) hl) rfl rfl (by simp [hl])
        (fun ht => ?_) with
        good := good_of (fun u _ => h.good u)
          (fun u hu => hview _ w.reclaimed u hu (by simp [readyqueueInsert, hu]) rfl)
          (.reaped { hv with
            thread := ?_, joiner := ?_, prio := ?_, stage := .inl ⟨?_, ?_, hst.2⟩ }) }
      · cases hst.1.symm.trans (h.timers t ht).1
      · simpa [view, readyqueueInsert] using hv.thread
      · simpa [view, readyqueueInsert] using hv.joiner
      · simpa [view, readyqueueInsert] using hv.prio
      · simp [view, readyqueueInsert]
      · simp [view]
  | unused hv | idle hv | mux hv | live hv | zombie hv => exact absurd hruns hv.runs

/-! ## Runs -/

/-- What keeps the references right: nobody holds a reference to a detached thread that exits,
no reference is given back while the joiner gives back its own, and the count fits its byte. -/
def Careful (w : World) : Event → Prop
  | .exit => (w.sched.task w.sched.current).detached = true → w.refs w.sched.current = 0
  | .getNext cur => (∀ t ∈ w.nextThread cur, w.refs t < 254) ∧
      ∀ t ∈ cur, w.own t = .kept ∨ w.own t = .gone
  | _ => True

instance (w : World) : (e : Event) → Decidable (w.Careful e)
  | .exit => inferInstanceAs (Decidable (_ → _))
  | .getNext _ => inferInstanceAs (Decidable (_ ∧ _))
  | .wakeup .. | .taskRun _ | .timeout _ | .addTask _ | .create .. | .sleep .. | .sleepUntil
  | .poll .. | .join _ | .cont | .switch | .ran _ => isTrue trivial

def Steps (w : World) (e : Event) (w' : World) : Prop := w.step e = some w'

theorem Inv.beforeRound (h : w.Inv) (hb : w.beforeRound e = some w₀) :
    w₀.Inv ∧ w₀.running = none := by
  cases e with
  | switch =>
    simp only [World.beforeRound, ite_none_right_eq_some, Option.some.injEq] at hb
    obtain ⟨hr, rfl⟩ := hb
    exact ⟨h, hr⟩
  | ran freed =>
    simp only [World.beforeRound, map_eq_some_iff] at hb
    obtain ⟨t, hr, rfl⟩ := hb
    exact ⟨h.afterRun hr freed, rfl⟩
  | _ => cases hb

theorem Inv.step (h : w.Inv) (hc : w.Careful e) (hs : w.Steps e w') : w'.Inv := by
  have hround : ∀ {e w'}, (w.beforeRound e).bind World.round = some w' → w'.Inv := by
    intro e w' hr
    obtain ⟨w₀, hb, hr⟩ := bind_eq_some_iff.mp hr
    obtain ⟨hinv, hrun⟩ := h.beforeRound hb
    obtain ⟨t, s, -, -, w₁, hw₁, -, hinv₁, -⟩ := hinv.round hrun
    rw [hr, Option.some.injEq] at hw₁
    exact hw₁ ▸ hinv₁
  unfold Steps at hs
  cases e with
  | wakeup n all =>
    cases hs
    exact h.taskWakeup (.obj n) all
  | taskRun t =>
    obtain ⟨hk, rfl⟩ := of_ite_some hs
    exact h.taskRun hk
  | timeout t => exact h.timerFires hs
  | addTask prio =>
    obtain ⟨hp, rfl⟩ := of_ite_some hs
    exact h.addTask hp
  | create detached prio =>
    cases hs
    exact h.threadCreate detached prio
  | sleep n timed =>
    obtain ⟨hcalls, rfl⟩ := of_ite_some hs
    exact h.sleepOn hcalls n timed
  | sleepUntil =>
    obtain ⟨hcalls, rfl⟩ := of_ite_some hs
    exact h.threadSleepUntil hcalls
  | poll targets timed =>
    obtain ⟨hcalls, rfl⟩ := of_ite_some hs
    exact h.pollSleep hcalls targets timed
  | exit =>
    obtain ⟨hcalls, rfl⟩ := of_ite_some hs
    exact h.threadExit hcalls hc
  | join t =>
    obtain ⟨⟨hcalls, hk, hdet, hj, -⟩, rfl⟩ := of_ite_some hs
    exact h.beginJoin hcalls hk hdet hj
  | getNext cur =>
    obtain ⟨⟨-, hheld⟩, rfl⟩ := of_ite_some hs
    exact h.threadGetNext hheld hc.1 hc.2
  | cont =>
    obtain ⟨hex, hs⟩ := ite_none_right_eq_some.mp hs
    exact h.cont hex hs
  | switch | ran freed => exact hround hs

theorem inv_of_run {es : List Event} (h : Run (Guarded Careful Steps) init es w) : w.Inv :=
  h.invariant inv_init fun _ _ _ hi hs => hi.step hs.1 hs.2

/-! ## First in, first out -/

theorem kept_in_order (w : World) (s₀ : Sched) :
    Sched.KeptByWaking fun s => { w with sched := s }.Inv ∧ s₀.Grows s where
  wake := by
    intro s t wt hi hs hl
    exact ⟨w.kept_by_waking.wake hi.1 hs hl, hi.2.trans (s.grows_wakeTask t)⟩
  unlink := by
    intro s t hi hs
    refine ⟨w.kept_by_waking.unlink hi.1 hs, hi.2.trans (.of_eq ?_)⟩
    simp [setState]
  which := by
    intro s hi f
    exact ⟨w.kept_by_waking.which hi.1 f, hi.2.trans (.of_eq rfl)⟩

theorem Inv.grows_taskWakeup (h : w.Inv) (wt : Waitable) (all : Bool) :
    w.sched.Grows (w.sched.taskWakeup wt all) :=
  ((w.kept_in_order w.sched).taskWakeup (fun hi => hi.1.ok.link_of_mem) (fun hi => hi.1.sleepers)
    ⟨h, .refl _⟩ wt all).2

theorem enlist_ready (owner m index : Nat) (targets : List Nat) (s : Sched) :
    (enlist owner m index targets s).ready = s.ready := by
  induction targets generalizing m index s with
  | nil => rfl
  | cons n targets ih => exact ih _ _ _

theorem unlist_ready (ms : List Nat) (s : Sched) : (unlist ms s).ready = s.ready := by
  induction ms generalizing s with
  | nil => rfl
  | cons m ms ih =>
    rw [unlist, ih]
    split
    · exact s.listRemove_ready m
    · rfl

theorem grows_reapIfLast (hs : w.sched = s) (t : Nat) : s.Grows (w.reapIfLast t).sched := by
  subst hs
  unfold reapIfLast
  split
  · exact .refl _
  · exact grows_append _ rfl

theorem grows_threadRelease (hs : w.sched = s) (t : Nat) : s.Grows (w.threadRelease t).sched := by
  apply grows_reapIfLast
  exact hs

theorem grows_threadGetNext (w : World) (cur : Option Nat) :
    w.sched.Grows (w.threadGetNext cur).sched := by
  have hretain : (w.retainNext (w.nextThread cur)).sched = w.sched := by
    cases w.nextThread cur <;> rfl
  unfold threadGetNext
  rw [← hretain]
  cases cur with
  | none => exact .refl _
  | some t =>
    apply grows_threadRelease
    rfl

theorem Inv.grows_threadExit (h : w.Inv) (hc : w.calls) : w.sched.Grows w.threadExit.sched := by
  by_cases hdet : (w.sched.task w.sched.current).detached = true
  · have heq : w.threadExit = World.threadRelease
        { w.leave w.sched.current with own := update w.own w.sched.current .gone }
        w.sched.current := by
      simp [World.threadExit, World.leave, World.setAct, hdet]
    rw [heq]
    apply grows_threadRelease
    rfl
  · rw [Bool.not_eq_true] at hdet
    rw [threadExit_joinable hdet]
    exact (h.zombified hc hdet).grows_taskWakeup joinWait true

theorem grows_timerFires (hf : w.timerFires t = some w') : w.sched.Grows w'.sched := by
  unfold timerFires at hf
  dsimp only at hf
  split at hf
  · cases hf
  · cases hf
    split
    · exact w.sched.grows_wakeTask t
    · exact .refl _
  · cases hf
    unfold makeRunnable
    split
    · exact w.sched.grows_readyqueueInsert t
    · exact .of_eq rfl

theorem grows_cont (hw : w.cont = some w') : w.sched.Grows w'.sched := by
  unfold cont at hw
  dsimp only at hw
  split at hw
  · cases hw
  · cases hw
  · cases hw
    exact .refl _
  · rename_i ms ha
    cases hw
    exact .of_eq (unlist_ready ms w.sched)
  · split at hw
    · cases hw
      exact .refl _
    · cases hw
      exact .of_eq rfl
  · cases hw
    exact .refl _
  · cases hw
    exact .refl _
  · cases hw
    apply grows_reapIfLast
    rfl

/-- Outside `task_switch`, tasks are only added to the ready queues, at their ends. -/
theorem Inv.grows_step (h : w.Inv) (hs : w.Steps e w')
    (hb : w.beforeRound e = none) : w.sched.Grows w'.sched := by
  unfold Steps at hs
  cases e with
  | wakeup n all =>
    cases hs
    exact h.grows_taskWakeup (.obj n) all
  | taskRun t =>
    obtain ⟨hk, rfl⟩ := of_ite_some hs
    unfold Sched.taskRun
    split
    · exact w.sched.grows_readyqueueInsert t
    · exact .refl _
  | timeout t => exact grows_timerFires hs
  | addTask prio | sleepUntil =>
    obtain ⟨-, rfl⟩ := of_ite_some hs
    exact .of_eq rfl
  | create detached prio =>
    cases hs
    exact grows_append _ rfl
  | sleep n timed =>
    obtain ⟨-, rfl⟩ := of_ite_some hs
    cases timed <;> exact .of_eq rfl
  | poll targets timed =>
    obtain ⟨-, rfl⟩ := of_ite_some hs
    cases timed <;> exact .of_eq (enlist_ready _ _ _ _ _)
  | exit =>
    obtain ⟨hcalls, rfl⟩ := of_ite_some hs
    exact h.grows_threadExit hcalls
  | join t =>
    obtain ⟨-, rfl⟩ := of_ite_some hs
    exact .refl _
  | getNext cur =>
    obtain ⟨-, rfl⟩ := of_ite_some hs
    exact w.grows_threadGetNext cur
  | cont =>
    obtain ⟨-, hs⟩ := ite_none_right_eq_some.mp hs
    exact grows_cont hs
  | switch | ran freed =>
    simp only [World.step, hb, bind_none] at hs
    cases hs

theorem grows_beforeRound (hb : w.beforeRound e = some w₀) : w.sched.Grows w₀.sched := by
  cases e with
  | switch =>
    obtain ⟨-, hb⟩ := ite_none_right_eq_some.mp hb
    injection hb with hb
    exact hb ▸ .refl _
  | ran freed =>
    obtain ⟨t, -, rfl⟩ := map_eq_some_iff.mp hb
    unfold afterRun
    split
    · cases freed with
      | true => exact .refl _
      | false => exact w.sched.grows_readyqueueInsert t
    · exact .refl _
  | _ => cases hb

/-! ## The result -/

/-- The queues, the selection and the reclamation are right. -/
structure Sound (w : World) : Prop where
  once : ∀ t pl pl', t ∈ w.sched.queue pl → t ∈ w.sched.queue pl' → pl = pl'
  nodup : ∀ pl, (w.sched.queue pl).Nodup
  active : ∀ p, w.sched.active.getLsbD p = true ↔ w.sched.ready p ≠ []
  running : (w.sched.task w.sched.current).state = .running → ¬ w.exited w.sched.current
  freed : ∀ t, w.kind t = .thread → w.reclaimed t ≠ 0 → w.reclaimed t = 1 ∧ w.exited t ∧ w.own t = .gone ∧
    w.refs t = 0 ∧ w.running ≠ some t ∧ ∀ pl, t ∉ w.sched.queue pl
  exited : ∀ t, w.exited t → w.reclaimed t = 0 →
    ((w.own t ≠ .gone ∨ 0 < w.refs t) ∧ ∀ pl, t ∉ w.sched.queue pl) ∨
    (w.own t = .gone ∧ w.refs t = 0 ∧ (w.sched.task t).thread = false ∧
      (t ∈ w.sched.ready 1 ∨ w.running = some t))

/-- `task_switch` takes `t` from the queues of `w₀`, and leaves the world as `w'`: `t` is the first
of the ready queue of the highest priority that has one; if it is a thread, it is the one that
goes on, and has not exited. -/
structure Selected (w₀ : World) (t : Nat) (w' : World) : Prop where
  grows : w₀.sched.Grows w₀.sched.requeue
  picked : ∃ s, w₀.sched.requeue.Picked t s ∧ w'.sched.ready = s.ready
  goes_on : w'.running = none ∧ w'.sched.current = t ∧ (w'.sched.task t).thread = true ∧
      ¬ w'.exited t ∨
    w'.running = some t ∧ (w'.sched.task t).thread = false

theorem Inv.sound (h : w.Inv) : w.Sound := by
  have hnone : ∀ t, (w.sched.task t).state = .none ∨ (w.sched.task t).state = .zombie →
      ∀ pl, t ∉ w.sched.queue pl := by
    intro t hs
    refine h.ok.placed.notMem (place_eq_none ?_ (h.ok.link_eq_none ?_ ?_)) <;>
      rcases hs with hs | hs <;> simp [hs]
  refine ⟨fun t pl pl' => h.ok.placed.unique, h.ok.placed.nodup, h.ok.active, ?_, ?_, ?_⟩
  · intro hs hex
    cases h.good w.sched.current with
    | zombie hv => simpa [view, hs] using hv.state
    | reaped hv => simpa [view, hs] using hv.stage
    | unused hv | idle hv | task hv | mux hv | live hv => exact hv.exited hex
  · intro t hkind hrec
    cases h.good t with
    | reaped hv =>
      have hst : (w.sched.task t).state = .none ∧ w.running ≠ some t ∧ w.reclaimed t = 1 := by
        simpa [view, hrec] using hv.stage
      exact ⟨hst.2.2, hv.exited, hv.own, hv.refs, hst.2.1, hnone t (.inl hst.1)⟩
    | live hv | zombie hv => exact absurd hv.reclaimed hrec
    | unused hv | idle hv | task hv | mux hv => cases hv.kind.symm.trans hkind
  · intro t hex hrec
    cases h.good t with
    | zombie hv =>
      refine .inl ⟨?_, hnone t (.inr hv.state)⟩
      by_cases hown : w.own t = .gone
      · exact .inr (hv.last hown)
      · exact .inl hown
    | reaped hv =>
      have hstage := hv.stage
      refine .inr ⟨hv.own, hv.refs, hv.thread, ?_⟩
      have hst : (w.sched.task t).state = .ready ∨ w.running = some t := by
        simp only [view, hrec] at hstage
        rcases hstage with hs | hs | hs
        · exact .inl hs.1
        · exact .inr hs.2.1
        · exact absurd hs.2.2 (by simp)
      refine hst.imp_left fun hs => ?_
      refine (h.ok.placed.mem t (.ready 1)).mpr ?_
      have hp : (w.sched.task t).prio = 1 := hv.prio
      simp [place, Task.place, hs, hp]
    | unused hv | idle hv | task hv | mux hv | live hv => exact absurd hex hv.exited

theorem Inv.selected (h : w.Inv) (hb : w.beforeRound e = some w₀) :
    ∃ t w', w.Steps e w' ∧ w₀.Selected t w' := by
  obtain ⟨hinv, hrun⟩ := h.beforeRound hb
  obtain ⟨t, s, hsw, hswitch, w', hround, hsched, -, hex⟩ := hinv.round hrun
  have hrunning : w'.running = if (w₀.sched.task t).thread then none else some t := by
    simp only [World.round, hswitch, map_some, Option.some.injEq] at hround
    rw [← hround]
  rw [← requeue_thread w₀.sched t] at hrunning
  refine ⟨t, w', ?_, grows_requeue _, ?_, ?_⟩
  · cases e with
    | switch | ran freed => simp only [Steps, World.step, hb, bind_some, hround]
    | _ => cases hb
  · rw [hsched]
    cases hsw with
    | thread hp hth | task hp hth => exact ⟨_, hp, rfl⟩
  · cases hsw with
    | thread hp hth =>
      have hr : w'.running = none := by simpa [hth] using hrunning
      refine .inl ⟨hr, (hex hr).1, ?_, (hex hr).2⟩
      rw [hsched]
      simpa [switchTo, setState, hp.task_eq] using hth
    | task hp hth =>
      refine .inr ⟨by simpa [hth] using hrunning, ?_⟩
      rw [hsched]
      simpa [setState, hp.task_eq] using hth

theorem Inv.freed (h : w.Inv) (hr : w.running = some t)
    (hk : w.kind t = .thread) (hs : w.Steps (.ran true) w') : w'.reclaimed t = 1 := by
  have hrec : w.reclaimed t = 0 := by
    cases h.good t with
    | reaped hv =>
      have hst : (w.sched.task t).state = .none ∧ w.reclaimed t = 0 := by
        simpa [view, hr] using hv.stage
      exact hst.2
    | unused hv | live hv | zombie hv => exact hv.reclaimed
    | idle hv | task hv | mux hv => cases hv.kind.symm.trans hk
  simp only [Steps, World.step, World.beforeRound, hr, map_some, bind_some,
    World.round, map_eq_some_iff] at hs
  obtain ⟨r, -, rfl⟩ := hs
  simp [World.afterRun, hk, hrec]

/-- In every state that a careful run reaches, the queues and the reclamation are right. Every
event but those of `task_switch` leaves each ready queue as it is or adds to its end; a round of
`task_switch` is always possible and takes the first task of the highest priority, never a thread
that has exited; and the task that frees a thread frees it. -/
theorem threads_sound (es : List Event) (w : World) (h : Run (Guarded Careful Steps) init es w) :
    w.Sound ∧ (∀ e w', w.beforeRound e = none → w.Steps e w' → w.sched.Grows w'.sched) ∧
    (∀ e w₀, w.beforeRound e = some w₀ → w.sched.Grows w₀.sched ∧
      ∃ t w', w.Steps e w' ∧ w₀.Selected t w') ∧
    ∀ t w', w.running = some t → w.kind t = .thread → w.Steps (.ran true) w' →
      w'.reclaimed t = 1 := by
  have hinv := inv_of_run h
  refine ⟨hinv.sound, fun e w' hb hs => hinv.grows_step hs hb,
    fun e w₀ hb => ⟨grows_beforeRound hb, hinv.selected hb⟩, ?_⟩
  intro t w' hr hk hs
  exact hinv.freed hr hk hs

/-- Thread 2 looks at all threads and sleeps while it holds a reference to thread 1, which is
detached and exits. -/
def exitWhileHeld : List Event :=
  [.create true 5, .create false 5, .switch, .switch, .getNext none, .getNext (some 2), .sleep 1 false,
    .switch, .exit, .switch]

/-- Thread 2 wakes up and gives the reference back. -/
def thenReleased : List Event := [.wakeup 1 true, .switch, .getNext (some 1)]

/-- The count of thread 1 is not 0 when it exits, and it is left as running: the next switch goes
on with it. When the reference is given back it is put on a second ready queue. -/
theorem exited_thread_runs_again : ∃ w, Run Steps init exitWhileHeld w ∧ w.exited 1 ∧
    w.sched.current = 1 ∧ (w.sched.task 1).state = .running ∧
    ∃ w', Run Steps w thenReleased w' ∧ 1 ∈ w'.sched.ready 5 ∧ 1 ∈ w'.sched.ready 1 := by
  have hrun : ∃ w ∈ exec step init exitWhileHeld, w.act 1 = .exited ∧ w.sched.current = 1 ∧
      (w.sched.task 1).state = .running ∧
      ∃ w' ∈ exec step w thenReleased, 1 ∈ w'.sched.ready 5 ∧ 1 ∈ w'.sched.ready 1 := by
    decide +kernel
  obtain ⟨w, hw, hex, hcur, hs, w', hw', hmem⟩ := hrun
  exact ⟨w, run_of_exec hw, hex, hcur, hs, w', run_of_exec hw', hmem⟩

/-- Thread 1 joins thread 2, which looks at all threads and exits. -/
def joinAndFree : List Event :=
  [.create false 5, .create false 5, .switch, .join 2, .cont, .switch, .getNext none,
    .getNext (some 2), .getNext (some 1), .exit, .switch, .cont, .cont, .cont, .cont, .sleep 1 false,
    .switch, .ran true]

theorem joined_thread_freed : ∃ w, Run (Guarded Careful Steps) init joinAndFree w ∧
    w.exited 2 ∧ w.reclaimed 2 = 1 ∧ w.sched.current = idle ∧ w.Sound := by
  obtain ⟨w, hrun, hex, hrec, hcur⟩ := exists_guarded_run
    (P := fun w : World => w.act 2 = .exited ∧ w.reclaimed 2 = 1 ∧ w.sched.current = idle)
    (show ∃ w ∈ exec (guardStep Careful step) init joinAndFree, _ from by decide +kernel)
  exact ⟨w, hrun, hex, hrec, hcur, (threads_sound joinAndFree w hrun).1⟩

end World

end Mios.Kernel
