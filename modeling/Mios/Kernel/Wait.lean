import Mios.Kernel.Thread

/-! Everything that waits on a list of the scheduler: `task_sleep` with and without a deadline,
`cond_wait`, the contention for a mutex, and `poll`, whose entries stand on the same lists. An
event is what happens with interrupts up to the scheduler's level forbidden, or one entry of a
`poll`, in which interrupts are let in between the entries. `task_switch` may take any thread that
is ready. The fast paths of a mutex come to the same as the slow ones here. -/

namespace Mios.Kernel

open Function Lib

/-- Where a thread is when it runs next. -/
inductive WaitPc where
  | user
  | asleep
  | lockWait (m : Nat)
  | condWait (m : Nat)
  | enlisting (entries : List Nat) (index : Nat)
  | polling (entries : List Nat) (m : Option Nat)
  deriving DecidableEq, Repr

/-- `since` is the record of when a task was put on the list that it is on. -/
structure Waiting where
  sched : Sched
  locked : Nat → Bool
  timer : Nat → Bool
  pc : Nat → WaitPc
  fresh : Nat
  since : Nat → Nat
  clock : Nat

/-- What an element of a `pollset_t` turns out to be: nothing, a waitable, or an event that is
asserted already. The `t_prio` of the entry is whatever `alloca` returned. -/
inductive Target where
  | none
  | waitable (n prio : Nat)
  | asserted
  deriving DecidableEq, Repr

namespace Waiting

inductive Event where
  | create (prio : Nat)
  | sleep (n : Nat) (timed : Bool)
  | condWait (c m : Nat) (timed : Bool)
  | lock (m : Nat)
  | unlock (m : Nat)
  | poll
  | target (x : Target)
  | pollSleep (m : Option Nat) (timed : Bool)
  | wakeup (n : Nat) (all : Bool)
  | timeout (t : Nat)
  | cont
  | switch (t : Nat)
  deriving DecidableEq, Repr

def init : Waiting where
  sched := { World.init.sched.setState Sched.idle .running with current := Sched.idle }
  locked := fun _ => false
  timer := fun _ => false
  pc := fun _ => .user
  fresh := 1
  since := fun _ => 0
  clock := 0

variable (k : Waiting)

def setPc (pc : WaitPc) : Waiting := { k with pc := update k.pc k.sched.current pc }

def setTimer (timed : Bool) : Waiting := { k with timer := update k.timer k.sched.current timed }

def create (prio : Nat) : Waiting :=
  { k with sched := k.sched.threadCreate k.fresh false prio, fresh := k.fresh + 1 }

/-- The current thread is put on a wait list. -/
def queueOn (w : Waitable) : Waiting :=
  { k with
    sched := k.sched.taskSleep w
    since := update k.since k.sched.current k.clock
    clock := k.clock + 1 }

/-- `task_sleep_sched_locked` and `task_sleep_abs_sched_locked` -/
def taskSleep (n : Nat) (timed : Bool) : Waiting :=
  ((k.queueOn (.obj n)).setTimer timed).setPc .asleep

/-- `mutex_lock_sched_locked`, from the test of the lock bit to the next one or to its end. -/
def mutexLock (m : Nat) : Waiting :=
  if k.locked m then
    if (k.sched.task k.sched.current).state ≠ .sleeping then
      (k.queueOn (.mutex m)).setPc (.lockWait m)
    else k.setPc (.lockWait m)
  else { k with locked := update k.locked m true }.setPc .user

def mutexUnlock (m : Nat) : Waiting :=
  let k := { k with locked := update k.locked m false }
  match k.sched.wait (.mutex m) with
  | [] => k
  | t :: _ => { k with sched := (k.sched.listRemove t).readyqueueInsert t }

def mutexLockIf : Option Nat → Waiting
  | none => k.setPc .user
  | some m => k.mutexLock m

def mutexUnlockIf : Option Nat → Waiting
  | none => k
  | some m => k.mutexUnlock m

/-- `cond_wait` and `cond_wait_timeout`, up to the sleep. -/
def condWait (c m : Nat) (timed : Bool) : Waiting :=
  (((k.mutexUnlock m).queueOn (.obj c)).setTimer timed).setPc (.condWait m)

def pollBegin : Waiting :=
  { k with sched := { k.sched with which := update k.sched.which k.sched.current none } }.setPc
    (.enlisting [] 0)

/-- `LIST_INSERT_HEAD` of an entry of a `poll`. -/
def enlist (n prio index : Nat) : Waiting :=
  { k with
    sched := { k.sched with
      task := update k.sched.task k.fresh
        ⟨false, false, prio, .muxedSleep, some (.obj n), some (k.sched.current, index)⟩
      wait := update k.sched.wait (.obj n) (k.fresh :: k.sched.wait (.obj n)) }
    fresh := k.fresh + 1 }

/-- The entries that are still on a list are taken off. -/
def unlist (entries : List Nat) : Waiting := { k with sched := World.unlist entries k.sched }

def pollTarget (entries : List Nat) (index : Nat) : Target → Waiting
  | .none => k.setPc (.enlisting entries (index + 1))
  | .waitable n prio =>
    (k.enlist n prio index).setPc (.enlisting (entries ++ [k.fresh]) (index + 1))
  | .asserted => (k.unlist entries).setPc .user

def pollSleep (entries : List Nat) (m : Option Nat) (timed : Bool) : Waiting :=
  (((k.mutexUnlockIf m).queueOn (.poll k.sched.current)).setTimer timed).setPc (.polling entries m)

def taskWakeup (n : Nat) (all : Bool) : Waiting :=
  { k with sched := k.sched.taskWakeup (.obj n) all }

/-- `task_sleep_abs_sched_locked_timeout` -/
def timeout (t : Nat) : Waiting :=
  let k := { k with timer := update k.timer t false }
  if (k.sched.task t).state = .sleeping then { k with sched := k.sched.wakeTask t } else k

/-- The current thread is not asleep. -/
def executes : Prop := (k.sched.task k.sched.current).state = .running

instance : Decidable k.executes := inferInstanceAs (Decidable (_ = _))

/-- The current thread executes, though it may have gone to sleep: then the next interrupt
switches away from it. -/
def active : Prop := k.executes ∨ (k.sched.task k.sched.current).state = .sleeping

instance : Decidable k.active := inferInstanceAs (Decidable (_ ∨ _))

/-- A thread goes on in the kernel: after its sleep, or with one more test of the lock bit. -/
def cont : Option Waiting :=
  match k.pc k.sched.current with
  | .user | .enlisting _ _ => none
  | .asleep => if k.executes then some ((k.setTimer false).setPc .user) else none
  | .lockWait m => if k.active then some (k.mutexLock m) else none
  | .condWait m => if k.executes then some ((k.setTimer false).mutexLock m) else none
  | .polling entries m =>
    if k.executes then some (((k.setTimer false).unlist entries).mutexLockIf m) else none

/-- The thread calls into the kernel. The idle thread never waits. -/
def calls : Prop := k.executes ∧ k.pc k.sched.current = .user ∧ k.sched.current ≠ Sched.idle

instance : Decidable k.calls := inferInstanceAs (Decidable (_ ∧ _))

/-- `poll` forbids thread switches before it goes to sleep. -/
def mayswitch : Bool :=
  match k.pc k.sched.current with
  | .enlisting _ _ => false
  | _ => true

def switchTo (t : Nat) : Waiting := { k with sched := k.sched.requeue.switchTo t }

def step : Event → Option Waiting
  | .create prio => some (k.create prio)
  | .sleep n timed => if k.calls then some (k.taskSleep n timed) else none
  | .condWait c m timed => if k.calls then some (k.condWait c m timed) else none
  | .lock m => if k.calls then some (k.mutexLock m) else none
  | .unlock m => if k.calls then some (k.mutexUnlock m) else none
  | .poll => if k.calls then some k.pollBegin else none
  | .target x =>
    match k.pc k.sched.current with
    | .enlisting entries index => if k.executes then some (k.pollTarget entries index x) else none
    | _ => none
  | .pollSleep m timed =>
    match k.pc k.sched.current with
    | .enlisting entries _ => if k.executes then some (k.pollSleep entries m timed) else none
    | _ => none
  | .wakeup n all => some (k.taskWakeup n all)
  | .timeout t => if k.timer t then some (k.timeout t) else none
  | .cont => k.cont
  | .switch t =>
    if k.mayswitch ∧ ((k.sched.task t).state = .ready ∨ t = Sched.idle) then some (k.switchTo t)
    else none

def Steps (k : Waiting) (e : Event) (k' : Waiting) : Prop := k.step e = some k'

/-! ## Going to sleep behind a poll -/

/-- No entry of a `poll` on the list has a `t_prio` below the priority of the current thread. -/
def NoneBelow (n : Nat) : Prop :=
  ∀ m ∈ k.sched.wait (.obj n), (k.sched.task m).state = .muxedSleep →
    (k.sched.task k.sched.current).prio ≤ (k.sched.task m).prio

instance (n : Nat) : Decidable (k.NoneBelow n) := inferInstanceAs (Decidable (∀ _ ∈ _, _))

/-- The waitable that the thread goes to sleep on. -/
def Event.sleepsOn : Event → Option Nat
  | .sleep n _ | .condWait n _ _ => some n
  | _ => none

/-- A thread goes to sleep behind the entries of `poll`. -/
def Behind (e : Event) : Prop := ∀ n ∈ e.sleepsOn, k.NoneBelow n

instance (e : Event) : Decidable (k.Behind e) := inferInstanceAs (Decidable (∀ _ ∈ _, _))

end Waiting

end Mios.Kernel
