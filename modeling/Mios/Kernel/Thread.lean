import Mios.Kernel.Sched
import Mios.Lib.Run

/-! Threads over the scheduler: creation, exit, join, the enumeration of all threads with its
references, sleeps with and without a timer, and `task_switch` with the tasks it runs. An
event is what happens with interrupts or thread switches forbidden; between two events any
interrupt may come, and `task_switch` may come wherever it is not forbidden. -/

namespace Mios.Kernel

open Function Lib

inductive Kind where
  | unused | idle | thread | task | mux
  deriving DecidableEq, Repr

/-- Where in the kernel a thread is when it runs next. `load`, `store` and `test` are the
three accesses of `thread_release` to `t_refcount`, which `thread_join` calls with thread
switches permitted. -/
inductive Activity where
  | user
  | timed
  | polling (muxes : List Nat)
  | joining (t : Nat)
  | load (t : Nat)
  | store (t v : Nat)
  | test (t : Nat)
  | exited
  deriving DecidableEq, Repr

inductive Timer where
  | sleepAbs | sleepUntil
  deriving DecidableEq, Repr

/-- The reference that a thread has from its creation on. It is dropped by its joiner, who
loads the count, stores it and tests it, or by the thread itself when it is detached. -/
inductive Own where
  | kept | loaded | dropped | gone
  deriving DecidableEq, Repr

/-- `running` is the task whose `t_run` was called by `task_switch`. From `kind` on, the
fields are the record of what happened: what each task is, who holds which reference, who
joins a thread, and how often its memory was freed. -/
structure World where
  sched : Sched
  running : Option Nat
  all : List Nat
  refcount : Nat → Nat
  timer : Nat → Option Timer
  act : Nat → Activity
  fresh : Nat
  kind : Nat → Kind
  held : List (Nat × Nat)
  own : Nat → Own
  joiner : Nat → Option Nat
  reclaimed : Nat → Nat

inductive Event where
  | wakeup (n : Nat) (all : Bool)
  | taskRun (t : Nat)
  | timeout (t : Nat)
  | addTask (prio : Nat)
  | create (detached : Bool) (prio : Nat)
  | sleep (n : Nat) (timed : Bool)
  | sleepUntil
  | poll (targets : List Nat) (timed : Bool)
  | exit
  | join (t : Nat)
  | getNext (cur : Option Nat)
  | cont
  | switch
  | ran (freed : Bool)
  deriving DecidableEq, Repr

namespace World

def joinWait : Waitable := .obj 0

/-- Before the first `task_switch`, on the stack of the idle thread. `cpu_init` gives it the
state of a zombie, so that the first switch does not requeue it. -/
def init : World where
  sched :=
    { task := fun t =>
        if t = Sched.idle then ⟨true, false, 0, .zombie, none, none⟩
        else ⟨false, false, 0, .none, none, none⟩
      ready := fun _ => []
      wait := fun _ => []
      active := 0
      current := Sched.idle
      which := fun _ => none }
  running := none
  all := []
  refcount := fun _ => 0
  timer := fun _ => none
  act := fun _ => .user
  fresh := 1
  kind := fun t => if t = Sched.idle then .idle else .unused
  held := []
  own := fun _ => .gone
  joiner := fun _ => none
  reclaimed := fun _ => 0

variable (w : World)

def exited (t : Nat) : Prop := w.act t = .exited

/-- How many references to the thread were got from `thread_get_next` and not given back. -/
def refs (t : Nat) : Nat := (w.held.map (·.2)).count t

def setAct (t : Nat) (a : Activity) : World := { w with act := update w.act t a }

/-- The end of `thread_release`: the thread becomes a task that frees its memory. -/
def reap (t : Nat) : World :=
  let task := update w.sched.task t { w.sched.task t with thread := false, prio := 1 }
  { w with sched := { w.sched with task := task }.readyqueueInsert t }

def dropRef (t v : Nat) : World := { w with refcount := update w.refcount t ((v + 255) % 256) }

def reapIfLast (t : Nat) : World := if w.refcount t ≠ 0 then w else w.reap t

def threadRelease (t : Nat) : World := (w.dropRef t (w.refcount t)).reapIfLast t

def threadRetain (t : Nat) : World :=
  { w with refcount := update w.refcount t ((w.refcount t + 1) % 256) }

/-- A task of a driver or of the kernel. -/
def addTask (prio : Nat) : World :=
  { w with
    sched := { w.sched with
      task := update w.sched.task w.fresh ⟨false, false, prio, .none, none, none⟩ }
    fresh := w.fresh + 1
    kind := update w.kind w.fresh .task }

def threadCreate (detached : Bool) (prio : Nat) : World :=
  { w with
    sched := w.sched.threadCreate w.fresh detached prio
    all := w.fresh :: w.all
    refcount := update w.refcount w.fresh 1
    fresh := w.fresh + 1
    kind := update w.kind w.fresh .thread
    own := update w.own w.fresh .kept }

def threadExit : World :=
  let t := w.sched.current
  let w := { w.setAct t .exited with all := w.all.erase t }
  if (w.sched.task t).detached then { w with own := update w.own t .gone }.threadRelease t
  else { w with sched := (w.sched.setState t .zombie).taskWakeup joinWait true }

def nextOf (cur : Nat) : List Nat → Option Nat
  | [] => none
  | t :: rest => if t = cur then rest.head? else nextOf cur rest

def nextThread : Option Nat → Option Nat
  | none => w.all.head?
  | some cur => nextOf cur w.all

/-- The reference that `thread_get_next` returns, and the one it takes back. -/
def retainNext : Option Nat → World
  | none => w
  | some t => { w.threadRetain t with held := (w.sched.current, t) :: w.held }

def releaseCur : Option Nat → World
  | none => w
  | some t => { w with held := w.held.erase (w.sched.current, t) }.threadRelease t

def threadGetNext (cur : Option Nat) : World := (w.retainNext (w.nextThread cur)).releaseCur cur

/-- The tasks of a `waitmux_t`, each at the head of its list. `poll` leaves their `t_prio`
as it finds it; only the place of later sleepers on the list depends on it. -/
def enlist (owner : Nat) : Nat → Nat → List Nat → Sched → Sched
  | _, _, [], s => s
  | m, index, n :: targets, s =>
    enlist owner (m + 1) (index + 1) targets
      { s with
        task := update s.task m ⟨false, false, 0, .muxedSleep, some (.obj n), some (owner, index)⟩
        wait := update s.wait (.obj n) (m :: s.wait (.obj n)) }

def setTimer (timer : Option Timer) : World :=
  { w with timer := update w.timer w.sched.current timer }

/-- `task_sleep`, or `task_sleep_abs_sched_locked` which arms a timer. -/
def sleepOn (n : Nat) (timed : Bool) : World :=
  let w' := { w with sched := w.sched.taskSleep (.obj n) }
  if timed then (w'.setTimer (some .sleepAbs)).setAct w.sched.current .timed else w'

def threadSleepUntil : World :=
  { w with sched := w.sched.setState w.sched.current .sleeping }.setTimer (some .sleepUntil)

def addMuxes (targets : List Nat) : World :=
  let cur := w.sched.current
  { w with
    sched := enlist cur w.fresh 0 targets
      { w.sched with which := update w.sched.which cur none }
    fresh := w.fresh + targets.length
    kind := fun t => if w.fresh ≤ t ∧ t < w.fresh + targets.length then .mux else w.kind t }

def pollSleep (targets : List Nat) (timed : Bool) : World :=
  let cur := w.sched.current
  let w' := (w.addMuxes targets).setAct cur (.polling (List.range' w.fresh targets.length))
  let w' := { w' with sched := w'.sched.taskSleep (.poll cur) }
  if timed then w'.setTimer (some .sleepAbs) else w'

def beginJoin (t : Nat) : World :=
  { w with joiner := update w.joiner t (some w.sched.current) }.setAct w.sched.current (.joining t)

/-- The tasks of the `waitmux_t` that were not woken are taken off their lists. -/
def unlist : List Nat → Sched → Sched
  | [], s => s
  | m :: ms, s => unlist ms (if (s.task m).state = .muxedSleep then s.listRemove m else s)

/-- A thread goes on in the kernel. -/
def cont : Option World :=
  let cur := w.sched.current
  match w.act cur with
  | .user | .exited => none
  | .timed => some ((w.setTimer none).setAct cur .user)
  | .polling ms => some { (w.setTimer none).setAct cur .user with sched := unlist ms w.sched }
  | .joining t =>
    if (w.sched.task t).state = .zombie then some (w.setAct cur (.load t))
    else some { w with sched := w.sched.taskSleep joinWait }
  | .load t => some { w.setAct cur (.store t (w.refcount t)) with own := update w.own t .loaded }
  | .store t v => some { (w.dropRef t v).setAct cur (.test t) with own := update w.own t .dropped }
  | .test t => some ({ w.setAct cur .user with own := update w.own t .gone }.reapIfLast t)

/-- A round of `task_switch`. -/
def round : Option World :=
  w.sched.taskSwitch.map fun r =>
    { w with sched := r.2, running := if (w.sched.task r.1).thread then none else some r.1 }

/-- `t_run` of a task: a thread that was released has `thread_exit2` there. -/
def afterRun (t : Nat) (freed : Bool) : World :=
  if w.kind t = .thread then
    if freed then { w with reclaimed := update w.reclaimed t (w.reclaimed t + 1) }
    else { w with sched := w.sched.readyqueueInsert t }
  else w

def timerFires (t : Nat) : Option World :=
  let w' := { w with timer := update w.timer t none }
  match w.timer t with
  | none => none
  | some .sleepAbs =>
    some (if (w.sched.task t).state = .sleeping then { w' with sched := w.sched.wakeTask t }
      else w')
  | some .sleepUntil => some { w' with sched := w.sched.makeRunnable t }

/-- A thread executes, and not an interrupt's or a task's code. -/
def executes : Prop := w.running = none ∧ (w.sched.task w.sched.current).state = .running

instance : Decidable w.executes := inferInstanceAs (Decidable (_ ∧ _))

/-- The thread calls into the kernel. The idle thread never sleeps and never exits. -/
def calls : Prop :=
  w.executes ∧ w.act w.sched.current = .user ∧ w.sched.current ≠ Sched.idle

instance : Decidable w.calls := inferInstanceAs (Decidable (_ ∧ _))

/-- The state in which `task_switch` begins a round: it was entered, or the task that it ran has
returned. -/
def beforeRound : Event → Option World
  | .switch => if w.running = none then some w else none
  | .ran freed => w.running.map fun t => { w.afterRun t freed with running := none }
  | _ => none

/-- A thread is joined once, if it is not detached, and not by itself; `thread_get_next` is
given what it returned last. -/
def step : Event → Option World
  | .wakeup n all => some { w with sched := w.sched.taskWakeup (.obj n) all }
  | .taskRun t => if w.kind t = .task then some { w with sched := w.sched.taskRun t } else none
  | .timeout t => w.timerFires t
  | .addTask prio => if prio < 32 then some (w.addTask prio) else none
  | .create detached prio => some (w.threadCreate detached prio)
  | .sleep n timed => if w.calls then some (w.sleepOn n timed) else none
  | .sleepUntil => if w.calls then some w.threadSleepUntil else none
  | .poll targets timed => if w.calls then some (w.pollSleep targets timed) else none
  | .exit => if w.calls then some w.threadExit else none
  | .join t =>
    if w.calls ∧ w.kind t = .thread ∧ (w.sched.task t).detached = false ∧ w.joiner t = none ∧
        t ≠ w.sched.current then some (w.beginJoin t) else none
  | .getNext cur =>
    if w.calls ∧ ∀ t ∈ cur, (w.sched.current, t) ∈ w.held then some (w.threadGetNext cur)
    else none
  | .cont => if w.executes then w.cont else none
  | .switch => (w.beforeRound .switch).bind round
  | .ran freed => (w.beforeRound (.ran freed)).bind round

end World

end Mios.Kernel
