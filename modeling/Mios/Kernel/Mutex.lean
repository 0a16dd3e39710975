import Mios.Kernel.Sched
import Mios.Lib.BsdList
import Mios.Lib.Run

/-! The mutexes and condition variables of `kernel/task.c` and `mios/task.h`. The lock bit of a
mutex is bit 0 of the word that is also the head of the list of its waiters; the fast paths
compare and swap that word, and the slow paths run with interrupts up to the scheduler's level
forbidden. A thread is its address, which is even and not null. Of the scheduler only the states
of the threads are kept: `task_switch` may take any thread that is ready. `Mios.Kernel.Wait` has the
same functions over the queues of the scheduler, where the order of the wake-ups is the subject. -/

namespace Mios.Kernel

open Function Lib Lib.BsdList

/-- Where a thread is: in the slow path of a mutex function, or asleep on a waitable. -/
inductive Pc where
  | user
  | lockSlow (m : Nat)
  | lockWait (m : Nat)
  | trySlow (m : Nat)
  | unlockSlow (m : Nat)
  | condWait (c m : Nat)
  | asleep (n : Nat)
  deriving DecidableEq, Repr

/-- `holds` records between which functions a thread is: it locked the mutex and has not unlocked
it. `timed` says whether the timer of its sleep is armed, and `tried` is what `mutex_trylock`
returned to it last. -/
structure Threads where
  links : Links Waitable
  state : Nat → TaskState
  prio : Nat → Nat
  current : Nat
  pc : Nat → Pc
  timed : Nat → Bool
  holds : Nat → Nat → Bool
  tried : Nat → Nat

namespace Threads

inductive Event where
  | lock (m : Nat) (fails : Bool)
  | trylock (m : Nat) (fails : Bool)
  | unlock (m : Nat) (fails : Bool)
  | condWait (c m : Nat) (timed : Bool)
  | slow
  | sleep (n : Nat) (timed : Bool)
  | wakeup (n : Nat) (all : Bool)
  | timeout (t : Nat)
  | switch (t : Nat)
  deriving DecidableEq, Repr

variable (w : Threads)

/-- `m->lock`. -/
def lock (m : Nat) : Nat := w.links.first (.mutex m)

def setLock (m v : Nat) : Threads := { w with links := w.links.put (.head (.mutex m)) v }

/-- `lock & ~1`. -/
def noBit (v : Nat) : Nat := v / 2 * 2

/-- `lock | 1`. -/
def withBit (v : Nat) : Nat := v / 2 * 2 + 1

def setState (t : Nat) (s : TaskState) : Threads := { w with state := update w.state t s }

def setPc (t : Nat) (pc : Pc) : Threads := { w with pc := update w.pc t pc }

def setHolds (m t : Nat) (b : Bool) : Threads :=
  { w with holds := update w.holds m (update (w.holds m) t b) }

def setTried (t r : Nat) : Threads := { w with tried := update w.tried t r }

def taskInsertWaitList (fuel : Nat) (wt : Waitable) (t : Nat) : Option Threads :=
  (w.links.insertSorted (fun a b => w.prio b < w.prio a) fuel wt t).map fun l =>
    { w with links := l }

/-- `LIST_REMOVE` of a task, which is then made ready, or goes on if it is the current one. -/
def wake (t : Nat) : Threads :=
  { w with links := w.links.remove t }.setState t (if t ≠ w.current then .ready else .running)

/-- `task_wakeup_sched_locked`, with a bound on the rounds. -/
def taskWakeup : Nat → Threads → Nat → Bool → Option Threads
  | 0, _, _, _ => none
  | fuel + 1, w, n, all =>
    if w.links.first (.obj n) = 0 then some w
    else if all then taskWakeup fuel (w.wake (w.links.first (.obj n))) n all
    else some (w.wake (w.links.first (.obj n)))

/-- `mutex_lock_sched_locked` for the current thread, from the test of the lock bit to the next
one or to its end. -/
def mutexLockSchedLocked (fuel m : Nat) : Option Threads :=
  if w.lock m % 2 = 1 then
    if w.state w.current ≠ .sleeping then
      let w := w.setState w.current .sleeping
      let w := w.setLock m (noBit (w.lock m))
      (w.taskInsertWaitList fuel (.mutex m) w.current).map fun w =>
        (w.setLock m (withBit (w.lock m))).setPc w.current (.lockWait m)
    else some (w.setPc w.current (.lockWait m))
  else some (((w.setLock m (withBit (w.lock m))).setPc w.current .user).setHolds m w.current true)

def clearLock (m : Nat) : Threads :=
  (w.setLock m (noBit (w.lock m))).setHolds m w.current false

/-- `mutex_unlock_sched_locked`. The first waiter is never the current thread, and there is no
test for it. -/
def mutexUnlockSchedLocked (m : Nat) : Threads :=
  let w := w.clearLock m
  if w.lock m ≠ 0 then
    { w with links := w.links.remove (w.lock m) }.setState (w.lock m) .ready
  else w

/-- `task_sleep_sched_locked` and `task_sleep_abs_sched_locked`. -/
def taskSleep (fuel n : Nat) : Option Threads :=
  (w.setState w.current .sleeping).taskInsertWaitList fuel (.obj n) w.current

/-- The sleep of the current thread, and where it is then. -/
def sleepAt (fuel n : Nat) (pc : Pc) (timed : Bool) : Option Threads :=
  (w.taskSleep fuel n).map fun w =>
    { w.setPc w.current pc with timed := update w.timed w.current timed }

def condWait (fuel c m : Nat) (timed : Bool) : Option Threads :=
  (w.mutexUnlockSchedLocked m).sleepAt fuel c (.condWait c m) timed

def mutexTrylockSlow (m : Nat) : Threads :=
  let r := w.lock m % 2
  let w := w.setTried w.current r
  if r = 1 then w.setPc w.current .user
  else ((w.setLock m (withBit (w.lock m))).setPc w.current .user).setHolds m w.current true

/-- The current thread goes on in a slow path. The timer of a sleep is disarmed at its end, before
the mutex is locked again. -/
def slow (fuel : Nat) : Option Threads :=
  match w.pc w.current with
  | .user => none
  | .lockSlow m | .lockWait m => w.mutexLockSchedLocked fuel m
  | .trySlow m => some (w.mutexTrylockSlow m)
  | .unlockSlow m => some ((w.mutexUnlockSchedLocked m).setPc w.current .user)
  | .condWait _ m =>
    if w.state w.current = .sleeping then none
    else { w with timed := update w.timed w.current false }.mutexLockSchedLocked fuel m
  | .asleep _ =>
    if w.state w.current = .sleeping then none
    else some ({ w with timed := update w.timed w.current false }.setPc w.current .user)

/-- A fast path: the word is `old` and becomes `new`, unless the weak compare and swap fails. -/
def cas (m old : Nat) (fails : Bool) : Prop := w.lock m = old ∧ fails = false

instance (m old : Nat) (fails : Bool) : Decidable (w.cas m old fails) :=
  inferInstanceAs (Decidable (_ ∧ _))

/-- The current thread is not in the kernel. -/
def calls : Prop := w.state w.current = .running ∧ w.pc w.current = .user

instance : Decidable w.calls := inferInstanceAs (Decidable (_ ∧ _))

/-- A mutex is unlocked by a thread that holds it. -/
def step (fuel : Nat) : Event → Option Threads
  | .lock m fails =>
    if w.calls then
      if w.cas m 0 fails then some ((w.setLock m 1).setHolds m w.current true)
      else some (w.setPc w.current (.lockSlow m))
    else none
  | .trylock m fails =>
    if w.calls then
      if w.cas m 0 fails then
        some (((w.setTried w.current 0).setLock m 1).setHolds m w.current true)
      else some (w.setPc w.current (.trySlow m))
    else none
  | .unlock m fails =>
    if w.calls ∧ w.holds m w.current = true then
      if w.cas m 1 fails then some ((w.setLock m 0).setHolds m w.current false)
      else some (w.setPc w.current (.unlockSlow m))
    else none
  | .condWait c m timed =>
    if w.calls ∧ w.holds m w.current = true then w.condWait fuel c m timed else none
  | .slow => w.slow fuel
  | .sleep n timed => if w.calls then w.sleepAt fuel n (.asleep n) timed else none
  | .wakeup n all => taskWakeup fuel w n all
  | .timeout t =>
    if w.timed t then
      let w := { w with timed := update w.timed t false }
      some (if w.state t = .sleeping then w.wake t else w)
    else none
  | .switch t =>
    if w.state t = .ready ∧ 0 < t ∧ t % 2 = 0 then
      let w := if w.state w.current = .running then w.setState w.current .ready else w
      some { w.setState t .running with current := t }
    else none

def Steps (w : Threads) (e : Event) (w' : Threads) : Prop := ∃ fuel, w.step fuel e = some w'

/-- Nothing is locked, and nobody sleeps. -/
def init (prio : Nat → Nat) (c : Nat) : Threads where
  links := ⟨fun _ => 0, fun _ => .next 0⟩
  state := fun t => if t = c then .running else .ready
  prio := prio
  current := c
  pc := fun _ => .user
  timed := fun _ => false
  holds := fun _ _ => false
  tried := fun _ => 0

end Threads

end Mios.Kernel
