import Mathlib.Data.List.Sort
import Mios.Lib.Place

/-! The scheduler of `kernel/task.c`: the tasks, the ready queue of each priority with the
word of active queues, the wait lists, and the functions that move a task between them.
Every function here runs with interrupts up to the scheduler's level forbidden. A queue is
the list of the tasks linked on it; task 0 is the idle thread. -/

namespace Mios.Kernel

open Function Lib.Place

/-- What a task can sleep on: a waitable of some driver or of the kernel, a mutex, or the
`wm_waitable` of a thread that is in `poll`. -/
inductive Waitable where
  | obj (n : Nat)
  | mutex (m : Nat)
  | poll (thread : Nat)
  deriving DecidableEq, Repr

inductive TaskState where
  | none | running | ready | sleeping | zombie | muxedSleep
  deriving DecidableEq, Repr

/-- The fields of `task_t`. `link` is the wait list that `t_wait_link` links the task into,
and `mux` the polling thread and the `t_index` of a task of a `waitmux_t`. -/
structure Task where
  thread : Bool
  detached : Bool
  prio : Nat
  state : TaskState
  link : Option Waitable
  mux : Option (Nat × Nat)
  deriving DecidableEq, Repr

structure Sched where
  task : Nat → Task
  ready : Nat → List Nat
  wait : Waitable → List Nat
  active : BitVec 32
  current : Nat
  which : Nat → Option Nat

namespace Sched

def idle : Nat := 0

def setState (s : Sched) (t : Nat) (state : TaskState) : Sched :=
  { s with task := update s.task t { s.task t with state := state } }

def readyqueueInsert (s : Sched) (t : Nat) : Sched :=
  { s with
    task := update s.task t { s.task t with state := .ready }
    ready := update s.ready (s.task t).prio (s.ready (s.task t).prio ++ [t])
    active := s.active ||| 1#32 <<< (s.task t).prio }

/-- `task_insert_wait_list`: before the first task of a lower priority. -/
def taskInsertWaitList (s : Sched) (w : Waitable) (t : Nat) : Sched :=
  { s with
    task := update s.task t { s.task t with link := some w }
    wait := update s.wait w
      ((s.wait w).orderedInsert (fun a b => (s.task b).prio < (s.task a).prio) t) }

/-- `LIST_REMOVE` on `t_wait_link`. -/
def listRemove (s : Sched) (t : Nat) : Sched :=
  match (s.task t).link with
  | none => s
  | some w =>
    { s with
      task := update s.task t { s.task t with link := none }
      wait := update s.wait w ((s.wait w).erase t) }

/-- What a wakeup and a timeout do with a task: the current thread has not been switched
away from yet, and is not put on a ready queue. -/
def makeRunnable (s : Sched) (t : Nat) : Sched :=
  if t ≠ s.current then s.readyqueueInsert t else s.setState t .running

def wakeTask (s : Sched) (t : Nat) : Sched := (s.listRemove t).makeRunnable t

/-- The `wm_waitable` of a `poll` holds the polling thread only. -/
def wakePoller (s : Sched) (owner : Nat) : Sched :=
  match s.wait (.poll owner) with
  | [] => s
  | t :: _ => s.wakeTask t

/-- A task of a `waitmux_t` is taken off its list; the first one wakes the polling thread. -/
def wakeMuxed (s : Sched) (t : Nat) : Sched :=
  let s := (s.listRemove t).setState t .none
  match (s.task t).mux with
  | none => s
  | some (owner, index) =>
    if s.which owner = none then
      { s with which := update s.which owner (some index) }.wakePoller owner
    else s

/-- The loop of `task_wakeup_sched_locked`; each round takes the first task off the list. -/
def wakeLoop : Nat → Sched → Waitable → Bool → Sched
  | 0, s, _, _ => s
  | n + 1, s, w, all =>
    match s.wait w with
    | [] => s
    | t :: _ =>
      if (s.task t).state = .muxedSleep then wakeLoop n (s.wakeMuxed t) w all
      else if all then wakeLoop n (s.wakeTask t) w all
      else s.wakeTask t

def taskWakeup (s : Sched) (w : Waitable) (all : Bool) : Sched :=
  wakeLoop (s.wait w).length s w all

/-- `task_sleep_sched_locked` up to its loop. -/
def taskSleep (s : Sched) (w : Waitable) : Sched :=
  (s.setState s.current .sleeping).taskInsertWaitList w s.current

def taskRun (s : Sched) (t : Nat) : Sched :=
  if (s.task t).state = .none then s.readyqueueInsert t else s

/-- The beginning of a round of `task_switch`. -/
def requeue (s : Sched) : Sched :=
  if (s.task s.current).state = .running then s.readyqueueInsert s.current else s

/-- The task that `task_switch` takes, or nothing if it finds `NULL` at the head of an
active queue. The highest set bit is `31 - clz`. -/
def pick (s : Sched) : Option (Nat × Sched) :=
  if s.active = 0 then some (idle, s)
  else
    match s.ready s.active.toNat.log2 with
    | [] => none
    | t :: rest =>
      some (t, { s with
        ready := update s.ready s.active.toNat.log2 rest
        active := if rest = [] then s.active &&& ~~~(1#32 <<< (s.task t).prio) else s.active })

/-- `task_switch` goes on with the thread it took. -/
def switchTo (s : Sched) (t : Nat) : Sched := { s.setState t .running with current := t }

/-- One round of `task_switch`: the task it takes. A thread becomes the current one and ends
the loop; for another task, `t_run` is called next. -/
def taskSwitch (s : Sched) : Option (Nat × Sched) :=
  s.requeue.pick.map fun r =>
    (r.1, if (r.2.task r.1).thread then r.2.switchTo r.1 else r.2.setState r.1 .none)

/-- The priority that `thread_create` gives: masked, and never that of the idle thread. -/
def threadPrio (prio : Nat) : Nat := if prio % 32 = 0 then 1 else prio % 32

/-- A new thread; `thread_create` has its own copy of the insertion. -/
def threadCreate (s : Sched) (t : Nat) (detached : Bool) (prio : Nat) : Sched :=
  { s with
    task := update s.task t ⟨true, detached, threadPrio prio, .ready, none, none⟩
    ready := update s.ready (threadPrio prio) (s.ready (threadPrio prio) ++ [t])
    active := s.active ||| 1#32 <<< threadPrio prio }

/-! ## Places -/

inductive Place where
  | ready (p : Nat)
  | wait (w : Waitable)
  deriving DecidableEq, Repr

def queue (s : Sched) : Place → List Nat
  | .ready p => s.ready p
  | .wait w => s.wait w

end Sched

/-- Where a task with this record has to be. -/
def Task.place (x : Task) : Option Sched.Place :=
  if x.state = .ready then some (.ready x.prio) else x.link.map .wait

namespace Sched

def place (s : Sched) (t : Nat) : Option Place := (s.task t).place

/-- The queues agree with the state and the links of the tasks, and the word of active
queues with the ready queues. Only the current thread runs. -/
structure Ok (s : Sched) : Prop where
  placed : Placed s.queue s.place
  linked : ∀ t, (s.task t).link ≠ none →
    (s.task t).state = .sleeping ∨ (s.task t).state = .muxedSleep
  active : ∀ p, s.active.getLsbD p = true ↔ s.ready p ≠ []
  prio : ∀ t, (s.task t).prio < 32
  running : ∀ t, (s.task t).state = .running → t = s.current

theorem queue_update_ready (s : Sched) (p : Nat) (l : List Nat) (task : Nat → Task)
    (active : BitVec 32) :
    { s with ready := update s.ready p l, task := task, active := active }.queue =
      update s.queue (.ready p) l := by
  funext pl
  cases pl with
  | ready p' =>
    by_cases hp : p' = p
    · simp [queue, hp]
    · simp [queue, hp]
  | wait w => simp [queue]

theorem queue_update_wait (s : Sched) (w : Waitable) (l : List Nat) (task : Nat → Task) :
    { s with wait := update s.wait w l, task := task }.queue = update s.queue (.wait w) l := by
  funext pl
  cases pl with
  | ready p => simp [queue]
  | wait w' =>
    by_cases hw : w' = w
    · simp [queue, hw]
    · simp [queue, hw]

variable {p t : Nat} {s s' : Sched} {x : Task} {state : TaskState}

theorem place_of_task (h : s'.task = update s.task t x) : s'.place = update s.place t x.place := by
  funext u
  by_cases hu : u = t
  · simp [place, h, hu]
  · simp [place, h, hu]

theorem place_eq_none (hs : (s.task t).state ≠ .ready)
    (hl : (s.task t).link = none) : s.place t = none := by
  simp [place, Task.place, hs, hl]

theorem Ok.link_eq_none (h : s.Ok)
    (hs : (s.task t).state ≠ .sleeping) (hm : (s.task t).state ≠ .muxedSleep) :
    (s.task t).link = none := by
  by_contra hl
  rcases h.linked t hl with hs' | hm'
  · exact hs hs'
  · exact hm hm'

/-- One task gets a new record, and goes to its place. -/
theorem Ok.change (h : s.Ok) (htask : s'.task = update s.task t x) (hcur : s'.current = s.current)
    (hplaced : Placed s'.queue (update s.place t x.place))
    (hactive : ∀ p, s'.active.getLsbD p = true ↔ s'.ready p ≠ [])
    (hlink : x.link ≠ none → x.state = .sleeping ∨ x.state = .muxedSleep) (hprio : x.prio < 32)
    (hrun : x.state = .running → t = s.current) : s'.Ok := by
  refine ⟨place_of_task htask ▸ hplaced, fun u => ?_, hactive, fun u => ?_, fun u => ?_⟩
  all_goals
    rw [htask]
    by_cases hu : u = t
    · subst hu
      simpa [hcur] using by assumption
  · simpa [hu] using h.linked u
  · simpa [hu] using h.prio u
  · simpa [hu, hcur] using h.running u

/-- A task record is replaced by one with the same place. -/
theorem Ok.setTask (h : s.Ok) (hplace : x.place = s.place t)
    (hlink : x.link ≠ none → x.state = .sleeping ∨ x.state = .muxedSleep) (hprio : x.prio < 32)
    (hrun : x.state = .running → t = s.current) : { s with task := update s.task t x }.Ok := by
  refine h.change rfl rfl ?_ h.active hlink hprio hrun
  rw [hplace, update_eq_self]
  exact h.placed

/-! ## The words of active queues -/

theorem getLsbD_set (a : BitVec 32) (hp : p < 32) (i : Nat) :
    (a ||| 1#32 <<< p).getLsbD i = (a.getLsbD i || decide (i = p)) := by
  simp
  grind

theorem getLsbD_clear (a : BitVec 32) (p i : Nat) :
    (a &&& ~~~(1#32 <<< p)).getLsbD i = (a.getLsbD i && decide (i ≠ p)) := by
  simp
  grind

theorem log2_set {a : BitVec 32} (ha : a ≠ 0) : a.getLsbD a.toNat.log2 = true := by
  have hne : a.toNat ≠ 0 := fun h => ha (BitVec.eq_of_toNat_eq h)
  exact Nat.testBit_log2 hne

theorem not_set_of_log2_lt {a : BitVec 32} {i : Nat} (hi : a.toNat.log2 < i) :
    a.getLsbD i = false := by
  have hlt : a.toNat < 2 ^ i :=
    Nat.lt_of_lt_of_le Nat.lt_log2_self (Nat.pow_le_pow_right (by decide) hi)
  exact Nat.testBit_lt_two_pow hlt

/-! ## Moving a task -/

/-- A task that is on no queue is put at the end of the ready queue of its priority. -/
theorem Ok.enqueue (h : s.Ok) (hplace : s.place t = none)
    (hx : x.state = .ready) (hl : x.link = none) (hprio : x.prio < 32) : { s with
      task := update s.task t x
      ready := update s.ready x.prio (s.ready x.prio ++ [t])
      active := s.active ||| 1#32 <<< x.prio }.Ok := by
  refine h.change rfl rfl ?_ (fun p => ?_) (fun hne => absurd hl hne) hprio (by simp [hx])
  · have hxp : x.place = some (.ready x.prio) := by simp [Task.place, hx]
    rw [queue_update_ready, hxp]
    exact h.placed.append hplace
  · simp only [getLsbD_set _ hprio, Bool.or_eq_true, decide_eq_true_eq, h.active]
    by_cases hp : p = x.prio
    · simp [hp]
    · simp [hp]

theorem Ok.readyqueueInsert (h : s.Ok) (hs : (s.task t).state ≠ .ready)
    (hl : (s.task t).link = none) : (s.readyqueueInsert t).Ok :=
  h.enqueue (place_eq_none hs hl) rfl hl (h.prio t)

theorem threadPrio_lt (prio : Nat) : threadPrio prio < 32 := by
  unfold threadPrio
  split
  · decide
  · exact Nat.mod_lt _ (by decide)

theorem Ok.threadCreate (h : s.Ok) (hs : (s.task t).state ≠ .ready)
    (hl : (s.task t).link = none) (detached : Bool) (prio : Nat) :
    (s.threadCreate t detached prio).Ok :=
  h.enqueue (place_eq_none hs hl)
    rfl rfl (threadPrio_lt prio)

theorem Ok.setState (h : s.Ok)
    (hs : (s.task t).state ≠ .ready) (hl : (s.task t).link = none) (hn : state ≠ .ready)
    (hrun : state = .running → t = s.current) : (s.setState t state).Ok := by
  apply h.setTask
  · rw [place_eq_none hs hl]
    simp [Task.place, hn, hl]
  · simp [hl]
  · exact h.prio t
  · exact hrun

/-- A task that is on no queue is put on a wait list. -/
theorem Ok.link (h : s.Ok) {w : Waitable} (hs : (s.task t).state ≠ .ready)
    (hl : (s.task t).link = none) (hlink : x.link = some w)
    (hx : x.state = .sleeping ∨ x.state = .muxedSleep) (hprio : x.prio < 32) {l : List Nat}
    (hperm : l.Perm (t :: s.wait w)) :
    { s with task := update s.task t x, wait := update s.wait w l }.Ok := by
  refine h.change rfl rfl ?_ h.active (fun _ => hx) hprio ?_
  · have hplace : x.place = some (.wait w) := by
      rcases hx with hx | hx <;> simp [Task.place, hx, hlink]
    rw [queue_update_wait, hplace]
    exact h.placed.insert (place_eq_none hs hl) hperm
  · rcases hx with hx | hx <;> simp [hx]

theorem Ok.taskInsertWaitList (h : s.Ok) (w : Waitable)
    (hs : (s.task t).state = .sleeping ∨ (s.task t).state = .muxedSleep)
    (hl : (s.task t).link = none) : (s.taskInsertWaitList w t).Ok := by
  have hnr : (s.task t).state ≠ .ready := by rcases hs with hs | hs <;> simp [hs]
  exact h.link (x := { s.task t with link := some w }) hnr hl rfl hs (h.prio t)
    (List.perm_orderedInsert _ _ _)

@[simp] theorem taskSleep_task (s : Sched) (w : Waitable) : (s.taskSleep w).task =
    update s.task s.current { s.task s.current with state := .sleeping, link := some w } := by
  simp [taskSleep, Sched.taskInsertWaitList, Sched.setState]

theorem Ok.taskSleep (h : s.Ok) (w : Waitable)
    (hs : (s.task s.current).state = .running) : (s.taskSleep w).Ok := by
  have hl := h.link_eq_none (t := s.current) (by simp [hs]) (by simp [hs])
  have hset : (s.setState s.current .sleeping).Ok :=
    h.setState (by simp [hs]) hl (by simp) (by simp)
  refine hset.taskInsertWaitList w (.inl ?_) ?_
  · simp [Sched.setState]
  · simpa [Sched.setState] using hl

@[simp] theorem listRemove_task (s : Sched) (t : Nat) :
    (s.listRemove t).task = update s.task t { s.task t with link := none } := by
  unfold listRemove
  split
  · rename_i hl
    rw [← hl, update_eq_self]
  · rfl

@[simp] theorem listRemove_current (s : Sched) (t : Nat) :
    (s.listRemove t).current = s.current := by
  unfold listRemove
  split <;> rfl

@[simp] theorem listRemove_ready (s : Sched) (t : Nat) : (s.listRemove t).ready = s.ready := by
  unfold listRemove
  split <;> rfl

theorem Ok.listRemove (h : s.Ok) (t : Nat) : (s.listRemove t).Ok := by
  unfold Sched.listRemove
  split
  · exact h
  rename_i w hl
  have hnr : (s.task t).state ≠ .ready := by
    rcases h.linked t (by simp [hl]) with hs | hs <;> simp [hs]
  have hplace : s.place t = some (.wait w) := by simp [place, Task.place, hnr, hl]
  have hx : ({ s.task t with link := none } : Task).place = none := by
    simp [Task.place, hnr]
  refine h.change rfl rfl ?_ h.active (fun hne => absurd rfl hne) (h.prio t) (h.running t)
  rw [queue_update_wait, hx]
  exact h.placed.erase hplace

@[simp] theorem setState_current (s : Sched) (t : Nat) (state : TaskState) :
    (s.setState t state).current = s.current := rfl

/-! ## Waking -/

/-- The record of a task that was woken. -/
def awake (s : Sched) (t : Nat) : Task :=
  { s.task t with link := none, state := if t = s.current then .running else .ready }

@[simp] theorem wakeTask_task (s : Sched) (t : Nat) :
    (s.wakeTask t).task = update s.task t (s.awake t) := by
  unfold wakeTask makeRunnable awake
  by_cases ht : t = s.current
  · simp [ht, Sched.setState]
  · simp [ht, Sched.readyqueueInsert]

@[simp] theorem wakeTask_current (s : Sched) (t : Nat) : (s.wakeTask t).current = s.current := by
  unfold wakeTask makeRunnable
  split <;> simp [Sched.setState, Sched.readyqueueInsert]

theorem Ok.wakeTask (h : s.Ok) (hs : (s.task t).state ≠ .ready) : (s.wakeTask t).Ok := by
  unfold Sched.wakeTask makeRunnable
  split
  · exact (h.listRemove t).readyqueueInsert (by simpa using hs) (by simp)
  · rename_i ht
    refine (h.listRemove t).setState (by simpa using hs) (by simp) (by simp) ?_
    intro _
    simpa using ht

/-- What a wakeup does to one task after the other, for whatever is kept by it: a sleeping
thread is woken, a task of a `waitmux_t` is taken off its list, and `wm_which` is set. -/
structure KeptByWaking (I : Sched → Prop) : Prop where
  wake : ∀ {s t w}, I s → (s.task t).state = .sleeping → (s.task t).link = some w →
    I (s.wakeTask t)
  unlink : ∀ {s t}, I s → (s.task t).state = .muxedSleep → I ((s.listRemove t).setState t .none)
  which : ∀ {s}, I s → ∀ f, I { s with which := f }

/-- On the wait list of a `poll` there are threads only. -/
def Sleepers (s : Sched) : Prop :=
  ∀ t w, (s.task t).link = some w → (s.task t).state = .sleeping ∨
    (s.task t).state = .muxedSleep ∧ ∀ u, w ≠ .poll u

theorem Sleepers.update (h : s.Sleepers) (htask : s'.task = update s.task t x)
    (hx : ∀ w, x.link = some w → x.state = .sleeping ∨ x.state = .muxedSleep ∧ ∀ u, w ≠ .poll u) :
    s'.Sleepers := by
  intro u w hl
  rw [htask] at hl ⊢
  by_cases hu : u = t
  · subst hu
    simp only [update_self] at hl ⊢
    exact hx w hl
  · simp only [update_of_ne hu] at hl ⊢
    exact h u w hl

theorem Ok.link_of_mem (h : s.Ok) {w : Waitable} (hmem : t ∈ s.wait w) :
    (s.task t).link = some w := by
  have hplace : s.place t = some (.wait w) := (h.placed.mem t (.wait w)).mp hmem
  unfold place Task.place at hplace
  split at hplace
  · cases hplace
  · simpa using hplace

section Waking

variable {I : Sched → Prop} (hI : KeptByWaking I)
  (hmem : ∀ {s}, I s → ∀ {t w}, t ∈ s.wait w → (s.task t).link = some w)
  (hsl : ∀ {s}, I s → s.Sleepers)
include hI hmem hsl

theorem KeptByWaking.wakePoller {s : Sched} (h : I s) (owner : Nat) : I (s.wakePoller owner) := by
  unfold Sched.wakePoller
  split
  · exact h
  rename_i t rest hw
  have hl := hmem h (t := t) (w := .poll owner) (by simp [hw])
  rcases hsl h t _ hl with hs | ⟨-, hne⟩
  · exact hI.wake h hs hl
  · exact absurd rfl (hne owner)

theorem KeptByWaking.wakeMuxed {s : Sched} (h : I s) {t : Nat}
    (hs : (s.task t).state = .muxedSleep) : I (s.wakeMuxed t) := by
  have hun := hI.unlink h hs
  unfold Sched.wakeMuxed
  dsimp only
  split
  · exact hun
  · split
    · exact hI.wakePoller hmem hsl (hI.which hun _) _
    · exact hun

theorem KeptByWaking.wakeLoop (n : Nat) {s : Sched} (h : I s) (w : Waitable) (all : Bool) :
    I (wakeLoop n s w all) := by
  induction n generalizing s with
  | zero => exact h
  | succ n ih =>
    unfold Sched.wakeLoop
    split
    · exact h
    rename_i t rest hw
    have hl := hmem h (t := t) (w := w) (by simp [hw])
    split
    · rename_i hs
      exact ih (hI.wakeMuxed hmem hsl h hs)
    rename_i hs
    have hsleep : (s.task t).state = .sleeping := by
      rcases hsl h t w hl with hs' | ⟨hm, -⟩
      · exact hs'
      · exact absurd hm hs
    split
    · exact ih (hI.wake h hsleep hl)
    · exact hI.wake h hsleep hl

theorem KeptByWaking.taskWakeup {s : Sched} (h : I s) (w : Waitable) (all : Bool) :
    I (s.taskWakeup w all) :=
  hI.wakeLoop hmem hsl _ h w all

end Waking

/-! ## Switching -/

/-- The task that a round of `task_switch` takes, and the queues without it: the first of the
ready queue of the highest priority that has one, or else the idle thread. -/
inductive Picked (s : Sched) : Nat → Sched → Prop
  | idle (hempty : ∀ p, s.ready p = []) : Picked s idle s
  | head {p t : Nat} {rest : List Nat} (hready : s.ready p = t :: rest)
      (hmax : ∀ q, p < q → s.ready q = []) (hstate : (s.task t).state = .ready)
      (hprio : (s.task t).prio = p) :
      Picked s t { s with
        ready := update s.ready p rest
        active := if rest = [] then s.active &&& ~~~(1#32 <<< p) else s.active }

theorem Ok.state_of_mem (h : s.Ok) (hmem : t ∈ s.ready p) :
    (s.task t).state = .ready ∧ (s.task t).prio = p := by
  have hplace : s.place t = some (.ready p) := (h.placed.mem t (.ready p)).mp hmem
  unfold place Task.place at hplace
  split at hplace
  · rename_i hs
    exact ⟨hs, by simpa using hplace⟩
  · simp at hplace

theorem Ok.pick (h : s.Ok) : ∃ t s', s.pick = some (t, s') ∧ s.Picked t s' := by
  unfold Sched.pick
  by_cases ha : s.active = 0
  · refine ⟨Sched.idle, s, by rw [if_pos ha], .idle fun p => ?_⟩
    by_contra hne
    have hbit := (h.active p).mpr hne
    rw [ha] at hbit
    simp at hbit
  · have hne := (h.active _).mp (log2_set ha)
    obtain ⟨t, rest, hready⟩ := List.exists_cons_of_ne_nil hne
    obtain ⟨hstate, hprio⟩ := h.state_of_mem (by rw [hready]; exact (.head _))
    have hmax : ∀ q, s.active.toNat.log2 < q → s.ready q = [] := by
      intro q hq
      by_contra hne'
      have hbit := (h.active q).mpr hne'
      rw [not_set_of_log2_lt hq] at hbit
      cases hbit
    refine ⟨t, _, ?_, .head hready hmax hstate hprio⟩
    rw [if_neg ha, hready]
    simp only [hprio]

theorem Ok.requeue (h : s.Ok) : s.requeue.Ok := by
  unfold Sched.requeue
  split
  · rename_i hs
    exact h.readyqueueInsert (by simp [hs]) (h.link_eq_none (by simp [hs]) (by simp [hs]))
  · exact h

theorem Ok.not_running_requeue (h : s.Ok) (u : Nat) : (s.requeue.task u).state ≠ .running := by
  unfold Sched.requeue
  split
  · by_cases hu : u = s.current
    · simp [Sched.readyqueueInsert, hu]
    · simp only [Sched.readyqueueInsert, ne_eq, update_of_ne hu]
      exact fun hr => hu (h.running u hr)
  · rename_i hs
    intro hr
    exact hs (h.running u hr ▸ hr)

theorem Ok.setCurrent (h : s.Ok) (hrun : ∀ u, (s.task u).state ≠ .running)
    (c : Nat) : { s with current := c }.Ok :=
  ⟨h.placed, h.linked, h.active, h.prio, fun u hu => absurd hu (hrun u)⟩

/-- The first task of a ready queue is taken off it and gets a new state. -/
theorem Ok.dequeue (h : s.Ok) {rest : List Nat}
    (hready : s.ready p = t :: rest) (hn : state ≠ .ready)
    (hrun : state = .running → t = s.current) : { s with
      ready := update s.ready p rest
      active := if rest = [] then s.active &&& ~~~(1#32 <<< p) else s.active
      task := update s.task t { s.task t with state := state } }.Ok := by
  obtain ⟨hs, hprio⟩ := h.state_of_mem (by rw [hready]; exact (.head _))
  have hl : (s.task t).link = none := h.link_eq_none (by simp [hs]) (by simp [hs])
  refine h.change rfl rfl ?_ (fun q => ?_) (fun hne => absurd hl hne) (h.prio t) hrun
  · have hplace : ({ s.task t with state := state } : Task).place = none := by
      simp [Task.place, hn, hl]
    rw [queue_update_ready, hplace]
    exact h.placed.tail hready
  · have hbit := h.active q
    have hclear := getLsbD_clear s.active p q
    by_cases hrest : rest = []
    · simp only [hrest, if_true, hclear]
      by_cases hq : q = p
      · simp [hq]
      · simpa [hq] using hbit
    · by_cases hq : q = p
      · subst hq
        simpa [hrest, hready] using hbit
      · simpa [hrest, hq] using hbit

/-- The task that a round took gets a new state, and may become the current one. -/
theorem Picked.ok (hp : s.Picked t s') (h : s.Ok)
    (hrun : ∀ u, (s.task u).state ≠ .running) (hidle : (s.task Sched.idle).link = none) (c : Nat)
    (hn : state ≠ .ready) (hc : state = .running → t = c) :
    { s'.setState t state with current := c }.Ok := by
  cases hp with
  | idle hempty =>
    have hnr : (s.task Sched.idle).state ≠ .ready := by
      intro hs
      have hmem := (h.placed.mem Sched.idle (.ready (s.task Sched.idle).prio)).mpr
        (by simp [place, Task.place, hs])
      simp [queue, hempty] at hmem
    exact (h.setCurrent hrun c).setState hnr hidle hn hc
  | head hready hmax hs hprio => exact (h.setCurrent hrun c).dequeue hready hn hc

/-- What a round of `task_switch` comes to: a thread becomes the current one, another task is
about to be run. -/
inductive Switched (s : Sched) : Nat → Sched → Prop
  | thread {t : Nat} {s' : Sched} (hpick : s.Picked t s') (hthread : (s.task t).thread = true) :
      Switched s t (s'.switchTo t)
  | task {t : Nat} {s' : Sched} (hpick : s.Picked t s') (hthread : (s.task t).thread = false) :
      Switched s t (s'.setState t .none)

theorem Picked.task_eq (hp : s.Picked t s') : s'.task = s.task := by
  cases hp <;> rfl

theorem Picked.current_eq (hp : s.Picked t s') : s'.current = s.current := by
  cases hp <;> rfl

/-- `task_switch` never finds an active queue empty. -/
theorem Ok.taskSwitch (h : s.Ok) :
    ∃ t s', s.taskSwitch = some (t, s') ∧ s.requeue.Switched t s' := by
  obtain ⟨t, s', hpick, hp⟩ := h.requeue.pick
  unfold Sched.taskSwitch
  rw [hpick, Option.map_some]
  by_cases hth : (s.requeue.task t).thread = true
  · refine ⟨t, s'.switchTo t, ?_, .thread hp hth⟩
    simp only [hp.task_eq, hth, if_true]
  · simp only [Bool.not_eq_true] at hth
    refine ⟨t, s'.setState t .none, ?_, .task hp hth⟩
    simp only [hp.task_eq, hth, Bool.false_eq_true, if_false]

theorem Switched.ok (hsw : s.Switched t s') (h : s.Ok)
    (hrun : ∀ u, (s.task u).state ≠ .running) (hidle : (s.task Sched.idle).link = none) :
    s'.Ok := by
  cases hsw with
  | thread hpick hth => exact hpick.ok h hrun hidle t (by simp) (fun _ => rfl)
  | @task s' hpick hth =>
    have hok : { s'.setState t .none with current := s'.current }.Ok :=
      hpick.ok h hrun hidle _ (by simp) (by simp)
    exact hok

/-! ## First in, first out

Each ready queue only grows at its end, and only `task_switch` takes from it, at its head. -/

def Grows (s s' : Sched) : Prop := ∀ p, s.ready p <+: s'.ready p

theorem Grows.refl (s : Sched) : s.Grows s := fun _ => List.prefix_refl _

theorem Grows.trans {s'' : Sched} (h : s.Grows s') (h' : s'.Grows s'') : s.Grows s'' :=
  fun p => (h p).trans (h' p)

theorem Grows.of_eq (h : s'.ready = s.ready) : s.Grows s' :=
  fun _ => h ▸ List.prefix_refl _

theorem grows_append (s : Sched)
    (h : s'.ready = update s.ready p (s.ready p ++ [t])) : s.Grows s' := by
  intro q
  rw [h]
  by_cases hq : q = p
  · subst hq
    simp
  · simp [hq]

theorem grows_readyqueueInsert (s : Sched) (t : Nat) : s.Grows (s.readyqueueInsert t) :=
  grows_append s rfl

theorem grows_wakeTask (s : Sched) (t : Nat) : s.Grows (s.wakeTask t) := by
  unfold wakeTask makeRunnable
  split
  · exact (Grows.of_eq (listRemove_ready s t)).trans (grows_readyqueueInsert _ _)
  · exact Grows.of_eq (listRemove_ready s t)

theorem grows_requeue (s : Sched) : s.Grows s.requeue := by
  unfold requeue
  split
  · exact grows_readyqueueInsert _ _
  · exact Grows.refl s

end Sched

end Mios.Kernel
