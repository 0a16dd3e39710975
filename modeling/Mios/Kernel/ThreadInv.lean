import Mios.Kernel.Thread

/-! The invariant of the threads and the scheduler, and that interrupts, timers, new tasks
and sleeping threads keep it. -/

namespace Mios.Kernel

open Function Lib

/-- What the kernel and its record say about one task. -/
structure View where
  kind : Kind
  task : Task
  exited : Prop
  own : Own
  joiner : Option Nat
  refcount : Nat
  refs : Nat
  reclaimed : Nat
  runs : Prop

/-- What the count holds for it. -/
def Own.counts : Own → Nat
  | .kept | .loaded => 1
  | .dropped | .gone => 0

/-- No reference to it is held, and nobody joins it. -/
structure View.Free (v : View) : Prop where
  exited : ¬ v.exited
  own : v.own = .gone
  joiner : v.joiner = none
  refs : v.refs = 0

structure View.Unused (v : View) : Prop extends Free v where
  kind : v.kind = .unused
  state : v.task.state = .none
  reclaimed : v.reclaimed = 0
  runs : ¬ v.runs

structure View.Idle (v : View) : Prop extends Free v where
  kind : v.kind = .idle
  thread : v.task.thread = true
  state : v.task.state = .zombie ∨ v.task.state = .ready ∨ v.task.state = .running
  runs : ¬ v.runs

structure View.Plain (v : View) : Prop extends Free v where
  kind : v.kind = .task
  thread : v.task.thread = false
  state : v.task.state = .none ∨ v.task.state = .ready

structure View.Mux (v : View) : Prop extends Free v where
  kind : v.kind = .mux
  thread : v.task.thread = false
  state : v.task.state = .none ∨ v.task.state = .muxedSleep
  runs : ¬ v.runs

structure View.Live (v : View) : Prop where
  kind : v.kind = .thread
  thread : v.task.thread = true
  state : v.task.state = .ready ∨ v.task.state = .running ∨ v.task.state = .sleeping
  exited : ¬ v.exited
  own : v.own = .kept
  joiner : v.joiner ≠ none → v.task.detached = false
  count : v.refcount = v.refs + 1
  byte : v.refcount < 256
  reclaimed : v.reclaimed = 0
  runs : ¬ v.runs

structure View.Zombie (v : View) : Prop where
  kind : v.kind = .thread
  thread : v.task.thread = true
  state : v.task.state = .zombie
  exited : v.exited
  detached : v.task.detached = false
  joiner : v.joiner = none → v.own = .kept
  count : v.refcount = v.refs + v.own.counts
  byte : v.refcount < 256
  last : v.own = .gone → 0 < v.refs
  reclaimed : v.reclaimed = 0
  runs : ¬ v.runs

structure View.Reaped (v : View) : Prop where
  kind : v.kind = .thread
  thread : v.task.thread = false
  exited : v.exited
  own : v.own = .gone
  joiner : v.joiner = none → v.task.detached = true
  refs : v.refs = 0
  count : v.refcount = 0
  prio : v.task.prio = 1
  stage : v.task.state = .ready ∧ ¬ v.runs ∧ v.reclaimed = 0 ∨
    v.task.state = .none ∧ v.runs ∧ v.reclaimed = 0 ∨
    v.task.state = .none ∧ ¬ v.runs ∧ v.reclaimed = 1

/-- The ways a task can be. A thread is live, then a zombie until its last reference goes,
then a task that frees it, and then gone; if it is detached it is never a zombie. -/
inductive View.Good (v : View) : Prop
  | unused (h : v.Unused)
  | idle (h : v.Idle)
  | task (h : v.Plain)
  | mux (h : v.Mux)
  | live (h : v.Live)
  | zombie (h : v.Zombie)
  | reaped (h : v.Reaped)

/-- A live thread goes from one state to another. -/
theorem View.Live.move {v : View} (h : v.Live) {x : Task} (hthread : x.thread = v.task.thread)
    (hdetached : x.detached = v.task.detached)
    (hstate : x.state = .ready ∨ x.state = .running ∨ x.state = .sleeping) :
    View.Good { v with task := x } :=
  .live { h with
    thread := hthread.trans h.thread
    state := hstate
    joiner := fun hj => hdetached.trans (h.joiner hj) }

namespace World

def view (w : World) (t : Nat) : View :=
  ⟨w.kind t, w.sched.task t, w.exited t, w.own t, w.joiner t, w.refcount t, w.refs t,
    w.reclaimed t, w.running = some t⟩

/-- What a thread that is in the kernel relies on. -/
def ActOk (w : World) (c : Nat) : Activity → Prop
  | .user | .timed | .exited => True
  | .polling ms => ∀ m ∈ ms, w.kind m = .mux
  | .joining t => w.joiner t = some c ∧ w.own t = .kept
  | .load t => w.joiner t = some c ∧ w.own t = .kept ∧ w.exited t
  | .store t v => w.joiner t = some c ∧ w.own t = .loaded ∧ w.exited t ∧ v = w.refcount t
  | .test t => w.joiner t = some c ∧ w.own t = .dropped ∧ w.exited t

/-- The queues, the list of all threads, and what threads are at. -/
structure Frame (w : World) : Prop where
  ok : w.sched.Ok
  sleepers : w.sched.Sleepers
  fresh : ∀ t, w.fresh ≤ t → w.kind t = .unused
  idle : ∀ t, w.kind t = .idle ↔ t = Sched.idle
  idle_act : w.act Sched.idle = .user
  current : w.sched.current = Sched.idle ∨ w.kind w.sched.current = .thread
  all : ∀ t, t ∈ w.all ↔ w.kind t = .thread ∧ ¬ w.exited t
  nodup : w.all.Nodup
  acts : ∀ c, w.ActOk c (w.act c)
  timers : ∀ t, w.timer t = some .sleepUntil →
    (w.sched.task t).state = .sleeping ∧ (w.sched.task t).link = none

structure Inv (w : World) : Prop extends Frame w where
  good : ∀ t, (w.view t).Good

theorem inv_init : init.Inv := by
  refine ⟨⟨⟨⟨?placed, ?nodup⟩, ?_, ?active, ?_, ?_⟩, ?_, ?fresh, ?idle, rfl, .inl rfl, ?_,
    List.nodup_nil, fun _ => trivial, fun _ ht => by cases ht⟩, ?good⟩
  case placed =>
    intro t pl
    cases pl <;> by_cases ht : t = Sched.idle <;>
      simp [init, Sched.queue, Sched.place, Task.place, ht]
  case nodup =>
    intro pl
    cases pl <;> simp [init, Sched.queue]
  case active =>
    intro p
    simp [init]
  case fresh =>
    intro t ht
    have hne : t ≠ Sched.idle := by
      intro h
      simp [init, h, Sched.idle] at ht
    simp [init, hne]
  case idle =>
    intro t
    simp [init]
  case good =>
    intro t
    by_cases ht : t = Sched.idle
    · subst ht
      exact .idle ⟨⟨by simp [view, exited, init], rfl, rfl, rfl⟩, rfl, rfl, .inl rfl,
        by simp [view, init]⟩
    · refine .unused ⟨⟨?_, rfl, rfl, rfl⟩, ?_, ?_, rfl, ?_⟩ <;> simp [view, exited, init, ht]
  all_goals
    intro t
    by_cases ht : t = Sched.idle <;> simp [init, ht]

variable {w : World}

/-! ## One task record changes -/

variable {a : Activity} {c t : Nat} {w' : World}

/-- All that is said about the tasks other than `t` is as before. -/
theorem good_of (h : ∀ u, u ≠ t → (w.view u).Good) (hview : ∀ u, u ≠ t → w'.view u = w.view u)
    (hgood : (w'.view t).Good) (u : Nat) : (w'.view u).Good := by
  by_cases hu : u = t
  · rw [hu]
    exact hgood
  · rw [hview u hu]
    exact h u hu

theorem Frame.setSched (h : w.Frame) {s : Sched} {x : Task} (hok : s.Ok)
    (htask : s.task = update w.sched.task t x) (hcur : s.current = w.sched.current)
    (hsl : ∀ w, x.link = some w → x.state = .sleeping ∨ x.state = .muxedSleep ∧ ∀ u, w ≠ .poll u)
    (htimer : w.timer t = some .sleepUntil → x.state = .sleeping ∧ x.link = none) :
    { w with sched := s }.Frame := by
  refine { h with
    ok := hok, sleepers := h.sleepers.update htask hsl, current := ?_, timers := ?_ }
  · rw [hcur]
    exact h.current
  intro u hu
  rw [htask]
  by_cases hut : u = t
  · subst hut
    simpa using htimer hu
  · simpa [hut] using h.timers u hu

section

variable (h : w.Inv)
include h

theorem Inv.setSched {s : Sched} {x : Task} (hok : s.Ok)
    (htask : s.task = update w.sched.task t x) (hcur : s.current = w.sched.current)
    (hsl : ∀ w, x.link = some w → x.state = .sleeping ∨ x.state = .muxedSleep ∧ ∀ u, w ≠ .poll u)
    (hgood : View.Good { w.view t with task := x })
    (htimer : w.timer t = some .sleepUntil → x.state = .sleeping ∧ x.link = none) :
    { w with sched := s }.Inv := by
  refine { h.toFrame.setSched hok htask hcur hsl htimer with
    good := good_of (t := t) (fun u _ => h.good u) ?_ ?_ }
  · intro u hu
    simp [view, htask, exited, refs, hu]
  · simpa [view, htask, exited, refs] using hgood

/-! ## Waking -/

theorem Inv.live (hk : w.kind t = .thread) (hex : ¬ w.exited t) : (w.view t).Live := by
  cases h.good t with
  | live hl => exact hl
  | zombie hv | reaped hv => exact absurd hv.exited hex
  | unused hv | idle hv | task hv | mux hv => cases hv.kind.symm.trans hk

theorem Inv.live_of_sleeping (hs : (w.sched.task t).state = .sleeping) : (w.view t).Live := by
  cases h.good t with
  | live hl => exact hl
  | unused hv | idle hv | task hv | mux hv | zombie hv => simpa [view, hs] using hv.state
  | reaped hv => simpa [view, hs] using hv.stage

theorem Inv.wakeTask (hs : (w.sched.task t).state = .sleeping)
    (htimer : w.timer t ≠ some .sleepUntil) : { w with sched := w.sched.wakeTask t }.Inv := by
  refine h.setSched (h.ok.wakeTask (by simp [hs])) (w.sched.wakeTask_task t)
    (w.sched.wakeTask_current t) (by simp [Sched.awake]) ?_ (fun ht => absurd ht htimer)
  refine (h.live_of_sleeping hs).move rfl rfl ?_
  by_cases ht : t = w.sched.current <;> simp [Sched.awake, ht]

omit h in
theorem kept_by_waking (w : World) : Sched.KeptByWaking fun s => { w with sched := s }.Inv where
  wake := by
    intro s t wt hi hs hl
    refine hi.wakeTask hs ?_
    intro ht
    have hnone : (s.task t).link = none := (hi.timers t ht).2
    rw [hnone] at hl
    cases hl
  unlink := by
    intro s t hi hs
    refine hi.setSched (t := t) (x := { s.task t with link := none, state := .none })
      ((hi.ok.listRemove t).setState (by simp [hs]) (by simp) (by simp) (by simp)) ?_ (by simp)
      (by simp) ?_ ?_
    · simp [Sched.setState]
    · cases hi.good t with
      | mux hm => exact .mux { hm with state := .inl rfl }
      | unused hv | idle hv | task hv | live hv | zombie hv => simpa [view, hs] using hv.state
      | reaped hv => simpa [view, hs] using hv.stage
    · intro ht
      have hsleep : (s.task t).state = .sleeping := (hi.timers t ht).1
      rw [hsleep] at hs
      cases hs
  which := by
    intro s hi f
    exact { hi with ok := { hi.ok with } }

theorem Inv.taskWakeup (wt : Waitable) (all : Bool) :
    { w with sched := w.sched.taskWakeup wt all }.Inv :=
  w.kept_by_waking.taskWakeup (fun hi => hi.ok.link_of_mem) (fun hi => hi.sleepers) h wt all

/-! ## Timers and what threads are at -/

theorem Inv.setTimer (t : Nat) (k : Option Timer) (hk : k = some .sleepUntil →
      (w.sched.task t).state = .sleeping ∧ (w.sched.task t).link = none) :
    { w with timer := update w.timer t k }.Inv := by
  refine { h with timers := ?_ }
  intro u hu
  by_cases hut : u = t
  · subst hut
    exact hk (by simpa using hu)
  · exact h.timers u (by simpa [hut] using hu)

omit h in
/-- What a thread relies on stays true when nobody else touches the thread that it joins. -/
theorem ActOk.mono (h : w.ActOk c a) (hmux : ∀ m, w.kind m = .mux → w'.kind m = .mux)
    (hjoin : ∀ t, w.joiner t = some c → w'.joiner t = some c ∧ w'.own t = w.own t ∧
      (w.exited t → w'.exited t) ∧ (w.own t = .loaded → w'.refcount t = w.refcount t)) :
    w'.ActOk c a := by
  cases a with
  | user | timed | exited => trivial
  | polling ms => exact fun m hm => hmux m (h m hm)
  | joining t =>
    obtain ⟨hj, hown⟩ := h
    obtain ⟨hj', hown', -⟩ := hjoin t hj
    exact ⟨hj', hown'.trans hown⟩
  | load t | test t =>
    obtain ⟨hj, hown, hex⟩ := h
    obtain ⟨hj', hown', hex', -⟩ := hjoin t hj
    exact ⟨hj', hown'.trans hown, hex' hex⟩
  | store t v =>
    obtain ⟨hj, hown, hex, hv⟩ := h
    obtain ⟨hj', hown', hex', hcount⟩ := hjoin t hj
    exact ⟨hj', hown'.trans hown, hex' hex, hv.trans (hcount hown).symm⟩

omit h in
theorem exited_setAct (ha : a ≠ .exited) (hc : w.act c ≠ .exited) :
    (w.setAct c a).exited = w.exited := by
  funext t
  by_cases ht : t = c
  · simp [exited, setAct, ht, ha, hc]
  · simp [exited, setAct, ht]

/-- A thread is at something else, and what the other threads rely on is as before. -/
theorem Inv.frame {all : List Nat} {own : Nat → Own} {joiner : Nat → Option Nat}
    {refcount : Nat → Nat} (hidle : c ≠ Sched.idle) (hc : w.act c ≠ .exited) (hnodup : all.Nodup)
    (hall : ∀ u, u ∈ all ↔ w.kind u = .thread ∧ ¬ (w.setAct c a).exited u)
    (hother : ∀ d u, d ≠ c → w.joiner u = some d →
      joiner u = some d ∧ own u = w.own u ∧ refcount u = w.refcount u)
    (hok : ActOk { w.setAct c a with
      all := all, own := own, joiner := joiner, refcount := refcount } c a) :
    { w.setAct c a with
      all := all, own := own, joiner := joiner, refcount := refcount }.Frame := by
  refine { h with idle_act := ?_, all := hall, nodup := hnodup, acts := fun d => ?_ }
  · simpa [World.setAct, hidle.symm] using h.idle_act
  by_cases hd : d = c
  · subst hd
    simpa only [World.setAct, update_self] using hok
  · simp only [World.setAct, update_of_ne hd]
    refine (h.acts d).mono (fun _ hm => hm) fun u hj => ?_
    obtain ⟨hj', hown, hcount⟩ := hother d u hd hj
    refine ⟨hj', hown, fun hex => ?_, fun _ => hcount⟩
    have hu : u ≠ c := fun huc => hc (huc ▸ hex)
    exact (update_of_ne hu a w.act).trans hex

theorem Inv.all_setAct (ha : a ≠ .exited) (hc : w.act c ≠ .exited) (u : Nat) :
    u ∈ w.all ↔ w.kind u = .thread ∧ ¬ (w.setAct c a).exited u := by
  rw [exited_setAct ha hc]
  exact h.all u

theorem Inv.setAct (ha : a ≠ .exited)
    (hc : w.act c ≠ .exited) (hidle : c ≠ Sched.idle) (hok : w.ActOk c a) : (w.setAct c a).Inv := by
  have hex := exited_setAct ha hc
  refine { h.frame hidle hc h.nodup (h.all_setAct ha hc) (fun _ _ _ hj => ⟨hj, rfl, rfl⟩) ?_ with
    good := fun t => ?_ }
  · exact hok.mono (fun _ hm => hm) fun t hj => ⟨hj, rfl, fun he => hex ▸ he, fun _ => rfl⟩
  · have hview : (w.setAct c a).view t = w.view t := by
      simp only [view, hex]
      rfl
    rw [hview]
    exact h.good t

/-! ## Tasks, timeouts and new tasks -/

theorem Inv.taskRun (hkind : w.kind t = .task) : { w with sched := w.sched.taskRun t }.Inv := by
  unfold Sched.taskRun
  split
  · rename_i hs
    have hl := h.ok.link_eq_none (t := t) (by simp [hs]) (by simp [hs])
    refine h.setSched (h.ok.readyqueueInsert (by simp [hs]) hl) rfl rfl (by simp [hl]) ?_ ?_
    · cases h.good t with
      | task ht => exact .task { ht with state := .inr rfl }
      | unused hv | idle hv | mux hv | live hv | zombie hv | reaped hv =>
        cases hv.kind.symm.trans hkind
    · intro ht
      simp [(h.timers t ht).1] at hs
  · exact h

theorem Inv.timerFires (hf : w.timerFires t = some w') : w'.Inv := by
  have hcl := h.setTimer t none (by simp)
  unfold World.timerFires at hf
  dsimp only at hf
  split at hf
  · cases hf
  · rename_i ht
    cases hf
    split
    · rename_i hs
      exact hcl.wakeTask hs (by simp)
    · exact hcl
  · rename_i ht
    cases hf
    obtain ⟨hs, hl⟩ := h.timers t ht
    have hwake : w.sched.makeRunnable t = w.sched.wakeTask t := by
      simp [Sched.wakeTask, Sched.listRemove, hl]
    rw [hwake]
    exact hcl.wakeTask hs (by simp)

theorem Inv.unused (ht : w.fresh ≤ t) : (w.view t).Unused := by
  cases h.good t with
  | unused hu => exact hu
  | idle hv | task hv | mux hv | live hv | zombie hv | reaped hv =>
    cases hv.kind.symm.trans (h.fresh t ht)

theorem Inv.lt_fresh (hkind : w.kind t ≠ .unused) : t < w.fresh := by
  by_contra hle
  exact hkind (h.fresh t (by omega))

theorem Inv.idle_lt : Sched.idle < w.fresh :=
  h.lt_fresh (by rw [(h.idle _).mpr rfl]; simp)

theorem Inv.current_lt : w.sched.current < w.fresh := by
  rcases h.current with hi | hk
  · rw [hi]
    exact h.idle_lt
  · exact h.lt_fresh (by rw [hk]; simp)

theorem Inv.link_unused (ht : w.fresh ≤ t) : (w.sched.task t).link = none := by
  have hs : (w.sched.task t).state = .none := (h.unused ht).state
  exact h.ok.link_eq_none (by simp [hs]) (by simp [hs])

/-- All that a thread relies on is about threads that exist. -/
theorem ActOk.mono_of_lt
    (hsame : ∀ t, t < w.fresh → w'.kind t = w.kind t ∧ w'.joiner t = w.joiner t ∧
      w'.own t = w.own t ∧ (w'.exited t ↔ w.exited t) ∧ w'.refcount t = w.refcount t)
    (hact : w.ActOk c a) : w'.ActOk c a := by
  apply hact.mono
  · intro m hm
    exact (hsame m (h.lt_fresh (by simp [hm]))).1.trans hm
  · intro t hj
    have hlt : t < w.fresh := by
      by_contra hle
      cases hj.symm.trans (h.unused (by omega)).joiner
    obtain ⟨-, hjoiner, hown, hex, hcount⟩ := hsame t hlt
    exact ⟨hjoiner.trans hj, hown, hex.mpr, fun _ => hcount⟩

/-- A new task: all that is said about the others is as before. -/
theorem Inv.grow (hfresh : w'.fresh = w.fresh + 1) (hok : w'.sched.Ok)
    (hsl : w'.sched.Sleepers) (hview : ∀ u, u ≠ w.fresh → w'.view u = w.view u)
    (hgood : (w'.view w.fresh).Good) (hkind : w'.kind w.fresh ≠ .idle)
    (hcur : w'.sched.current = w.sched.current) (hact : w'.act = w.act)
    (htimer : w'.timer = w.timer)
    (hall : w'.all = if w'.kind w.fresh = .thread then w.fresh :: w.all else w.all) : w'.Inv := by
  have hlt := h.idle_lt
  have hk : ∀ u, u ≠ w.fresh → w'.kind u = w.kind u := fun u hu =>
    (congrArg View.kind (hview u hu) :)
  have hex : ∀ u, w'.exited u ↔ w.exited u := fun u => by simp [exited, hact]
  have hfreshKind := h.fresh w.fresh le_rfl
  refine ⟨⟨hok, hsl, ?fresh, ?idle, ?idle_act, ?current, ?all, ?nodup, ?acts, ?timers⟩,
    good_of (fun u _ => h.good u) hview hgood⟩
  case fresh =>
    intro u hu
    rw [hk u (by omega)]
    exact h.fresh u (by omega)
  case idle =>
    intro u
    by_cases hu : u = w.fresh
    · subst hu
      exact ⟨fun hi => absurd hi hkind, fun hi => absurd hi (Nat.ne_of_gt hlt)⟩
    · rw [hk u hu]
      exact h.idle u
  case idle_act =>
    rw [hact]
    exact h.idle_act
  case current =>
    rw [hcur, hk _ (Nat.ne_of_lt h.current_lt)]
    exact h.current
  case all =>
    intro u
    have hu := h.all u
    rw [hex, hall]
    by_cases hf : u = w.fresh
    · subst hf
      have hnot : ¬ w.exited w.fresh := (h.unused le_rfl).exited
      split
      · simp_all
      · simp_all
    · rw [hk u hf]
      split
      · simpa [hf] using hu
      · exact hu
  case nodup =>
    rw [hall]
    split
    · refine List.nodup_cons.mpr ⟨?_, h.nodup⟩
      intro hmem
      simp [(h.all _).mp hmem] at hfreshKind
    · exact h.nodup
  case acts =>
    intro c
    rw [hact]
    apply ActOk.mono_of_lt h _ (h.acts c)
    intro t ht
    have hv := hview t (Nat.ne_of_lt ht)
    exact ⟨(congrArg View.kind hv :), (congrArg View.joiner hv :), (congrArg View.own hv :), hex t,
      (congrArg View.refcount hv :)⟩
  case timers =>
    intro u hu
    rw [htimer] at hu
    have ht := h.timers u hu
    by_cases hf : u = w.fresh
    · subst hf
      cases ht.1.symm.trans (h.unused le_rfl).state
    · have htask : w'.sched.task u = w.sched.task u := (congrArg View.task (hview u hf) :)
      rw [htask]
      exact ht

theorem Inv.addTask {prio : Nat} (hprio : prio < 32) : (w.addTask prio).Inv := by
  have hnew := h.unused (Nat.le_refl w.fresh)
  have hs : (w.sched.task w.fresh).state = .none := hnew.state
  have hk : (w.addTask prio).kind w.fresh = .task := by simp [World.addTask]
  refine h.grow rfl ?_ (h.sleepers.update rfl (by simp)) ?_ ?_ (by simp [hk]) rfl rfl rfl ?_
  · refine h.ok.setTask ?_ (by simp) hprio (by simp)
    rw [Sched.place_eq_none (by simp [hs]) (h.link_unused le_rfl)]
    rfl
  · intro u hu
    simp [view, World.addTask, exited, refs, hu]
  · refine .task { hnew.toFree with kind := hk, thread := ?_, state := .inl ?_ } <;>
      simp [view, World.addTask]
  · simp [hk]
    rfl

theorem Inv.threadCreate (detached : Bool) (prio : Nat) : (w.threadCreate detached prio).Inv := by
  have hnew := h.unused (Nat.le_refl w.fresh)
  have hs : (w.sched.task w.fresh).state = .none := hnew.state
  have hk : (w.threadCreate detached prio).kind w.fresh = .thread := by simp [World.threadCreate]
  refine h.grow rfl (h.ok.threadCreate (by simp [hs]) (h.link_unused le_rfl) detached prio)
    (h.sleepers.update rfl (by simp)) ?_ ?_ (by simp [hk]) rfl rfl rfl ?_
  · intro u hu
    simp [view, World.threadCreate, Sched.threadCreate, exited, refs, hu]
  · refine .live ⟨hk, ?_, .inl ?_, hnew.exited, ?_, fun hj => absurd hnew.joiner hj, ?_, ?_,
      hnew.reclaimed, hnew.runs⟩
    case refine_4 =>
      have hr : (w.threadCreate detached prio).refs w.fresh = 0 := hnew.refs
      simp only [view, hr]
      simp [World.threadCreate]
    all_goals simp [view, World.threadCreate, Sched.threadCreate]
  · rw [if_pos hk]
    rfl

/-! ## Sleeping -/

/-- The current thread is live, if it is not the idle thread and has not exited. -/
theorem Inv.current_live (hidle : w.sched.current ≠ Sched.idle) :
    w.kind w.sched.current = .thread :=
  h.current.resolve_left hidle

theorem Inv.not_until_of_running
    (hs : (w.sched.task t).state = .running) : w.timer t ≠ some .sleepUntil := by
  intro ht
  simp [(h.timers t ht).1] at hs

theorem Inv.taskSleep (wt : Waitable) (hs : (w.sched.task w.sched.current).state = .running)
    (hidle : w.sched.current ≠ Sched.idle) (hex : w.act w.sched.current ≠ .exited) :
    { w with sched := w.sched.taskSleep wt }.Inv := by
  refine h.setSched (h.ok.taskSleep wt hs) (w.sched.taskSleep_task wt) rfl (by simp) ?_ ?_
  · exact (h.live (h.current_live hidle) hex).move rfl rfl (by simp)
  · exact fun ht => absurd ht (h.not_until_of_running hs)

theorem Inv.sleepOn (hc : w.calls) (n : Nat) (timed : Bool) : (w.sleepOn n timed).Inv := by
  obtain ⟨⟨-, hs⟩, hact, hidle⟩ := hc
  have hsleep := h.taskSleep (.obj n) hs hidle (by simp [hact])
  cases timed with
  | false => exact hsleep
  | true =>
    have htimer := hsleep.setTimer w.sched.current (some .sleepAbs) (by simp)
    exact htimer.setAct (by simp) (by simp [hact]) hidle trivial

theorem Inv.threadSleepUntil (hc : w.calls) : w.threadSleepUntil.Inv := by
  obtain ⟨⟨-, hs⟩, hact, hidle⟩ := hc
  have hl := h.ok.link_eq_none (t := w.sched.current) (by simp [hs]) (by simp [hs])
  have hset : { w with sched := w.sched.setState w.sched.current .sleeping }.Inv := by
    refine h.setSched (h.ok.setState (by simp [hs]) hl (by simp) (by simp)) rfl rfl (by simp [hl])
      ?_ ?_
    · exact (h.live (h.current_live hidle) (by simp [exited, hact])).move rfl rfl (by simp)
    · exact fun ht => absurd ht (h.not_until_of_running hs)
  refine hset.setTimer w.sched.current (some .sleepUntil) (fun _ => ⟨?_, ?_⟩)
  · simp [Sched.setState]
  · simpa [Sched.setState] using hl

/-! ## Polling -/

/-- One more task of a `waitmux_t`. -/
def addMux (w : World) (owner index n : Nat) : World :=
  { w with
    sched := { w.sched with
      task := update w.sched.task w.fresh
        ⟨false, false, 0, .muxedSleep, some (.obj n), some (owner, index)⟩
      wait := update w.sched.wait (.obj n) (w.fresh :: w.sched.wait (.obj n)) }
    fresh := w.fresh + 1
    kind := update w.kind w.fresh .mux }

theorem Inv.addMux (owner index n : Nat) : (w.addMux owner index n).Inv := by
  have hnew := h.unused (Nat.le_refl w.fresh)
  have hs : (w.sched.task w.fresh).state = .none := hnew.state
  have hk : (w.addMux owner index n).kind w.fresh = .mux := by simp [World.addMux]
  refine h.grow rfl ?_ (h.sleepers.update rfl (by simp)) ?_ ?_ (by simp [hk]) rfl rfl rfl ?_
  · exact h.ok.link (by simp [hs]) (h.link_unused le_rfl) rfl (by simp) (by simp) (List.Perm.refl _)
  · intro u hu
    simp [view, World.addMux, exited, refs, hu]
  · refine .mux { hnew.toFree with
      kind := hk, thread := ?_, state := .inr ?_, runs := hnew.runs } <;> simp [view, World.addMux]
  · simp [hk]
    rfl

end

/-- The tasks for the rest of the targets. -/
def addMuxesFrom (w : World) (owner index : Nat) (targets : List Nat) : World :=
  { w with
    sched := enlist owner w.fresh index targets w.sched
    fresh := w.fresh + targets.length
    kind := fun t => if w.fresh ≤ t ∧ t < w.fresh + targets.length then .mux else w.kind t }

theorem addMuxesFrom_nil (owner index : Nat) : w.addMuxesFrom owner index [] = w := by
  have hkind : (w.addMuxesFrom owner index []).kind = w.kind := by
    funext t
    simp only [addMuxesFrom, List.length_nil, ite_eq_right_iff]
    omega
  simp only [addMuxesFrom, enlist] at hkind ⊢
  rw [hkind]
  rfl

theorem addMuxesFrom_cons (owner index n : Nat) (targets : List Nat) :
    w.addMuxesFrom owner index (n :: targets) =
      (w.addMux owner index n).addMuxesFrom owner (index + 1) targets := by
  have hkind : (w.addMuxesFrom owner index (n :: targets)).kind =
      ((w.addMux owner index n).addMuxesFrom owner (index + 1) targets).kind := by
    funext t
    simp only [addMuxesFrom, World.addMux, List.length_cons]
    by_cases ht : t = w.fresh
    · subst ht
      simp
    · rw [update_of_ne ht]
      congr 1
      simp only [eq_iff_iff]
      omega
  have hfresh : w.fresh + (targets.length + 1) = w.fresh + 1 + targets.length := by omega
  simp only [addMuxesFrom, World.addMux, enlist, List.length_cons, hfresh] at hkind ⊢
  rw [hkind]

theorem Inv.addMuxesFrom (h : w.Inv) (owner index : Nat) (targets : List Nat) :
    (w.addMuxesFrom owner index targets).Inv := by
  induction targets generalizing w index with
  | nil =>
    rw [addMuxesFrom_nil]
    exact h
  | cons n targets ih =>
    rw [addMuxesFrom_cons]
    exact ih (h.addMux owner index n) (index + 1)

theorem enlist_current (owner m index : Nat) (targets : List Nat) (s : Sched) :
    (enlist owner m index targets s).current = s.current := by
  induction targets generalizing m index s with
  | nil => rfl
  | cons n targets ih => exact ih _ _ _

theorem enlist_task (owner m index : Nat) (targets : List Nat) (s : Sched) (ht : t < m) :
    (enlist owner m index targets s).task t = s.task t := by
  induction targets generalizing m index s with
  | nil => rfl
  | cons n targets ih =>
    rw [enlist, ih (m + 1) _ _ (by omega)]
    simp [Nat.ne_of_lt ht]

theorem Inv.pollSleep (h : w.Inv) (hc : w.calls) (targets : List Nat) (timed : Bool) :
    (w.pollSleep targets timed).Inv := by
  obtain ⟨⟨-, hs⟩, hact, hidle⟩ := hc
  have hwhich := w.kept_by_waking.which h (update w.sched.which w.sched.current none)
  have hadd : (w.addMuxes targets).Inv := hwhich.addMuxesFrom w.sched.current 0 targets
  have hcur : (w.addMuxes targets).sched.current = w.sched.current := enlist_current _ _ _ _ _
  have hset := hadd.setAct
    (a := .polling (List.range' w.fresh targets.length)) (by simp) (by simp [addMuxes, hact]) hidle
    (fun m hm => if_pos (List.mem_range'_1.mp hm))
  have hrun : ((w.addMuxes targets).sched.task w.sched.current).state = .running :=
    (congrArg Task.state (enlist_task _ _ _ _ _ h.current_lt)).trans hs
  have hsleep := hset.taskSleep (.poll w.sched.current) (by simpa [World.setAct, hcur] using hrun)
    (by simpa [World.setAct, hcur] using hidle) (by simp [World.setAct, hcur])
  unfold World.pollSleep
  cases timed with
  | false => exact hsleep
  | true => exact hsleep.setTimer _ (some .sleepAbs) (by simp)

theorem Inv.unlist (h : w.Inv) (ms : List Nat) (hms : ∀ m ∈ ms, w.kind m = .mux) :
    { w with sched := unlist ms w.sched }.Inv := by
  induction ms generalizing w with
  | nil => exact h
  | cons m ms ih =>
    have hrest : ∀ m' ∈ ms, w.kind m' = .mux := fun m' hm' => hms m' (.tail _ hm')
    unfold World.unlist
    split
    · rename_i hs
      refine ih (w := { w with sched := w.sched.listRemove m }) ?_ hrest
      refine h.setSched (h.ok.listRemove m) (w.sched.listRemove_task m) (w.sched.listRemove_current m)
        (by simp) ?_ ?_
      · cases h.good m with
        | mux hm => exact .mux { hm with }
        | unused hv | idle hv | task hv | live hv | zombie hv | reaped hv =>
          cases hv.kind.symm.trans (hms m (.head _))
      · intro ht
        simp [(h.timers m ht).1] at hs
    · exact ih h hrest

end World

end Mios.Kernel
