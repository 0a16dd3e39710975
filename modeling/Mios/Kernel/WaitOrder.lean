import Mios.Kernel.Wait
import Mios.Lib.Lists

/-! The order of the wait lists, and whom a wakeup releases. The order is kept as long as a
thread never goes to sleep on a list with an entry of a `poll` whose `t_prio`, which `poll` does
not set, is below the priority of the thread. -/

namespace Mios.Kernel

open Function Lib Lib.Place List

namespace Sched

/-- `a` is to be woken before `b`. -/
def Before (s : Sched) (since : Nat → Nat) (a b : Nat) : Prop :=
  (s.task b).prio < (s.task a).prio ∨ (s.task a).prio = (s.task b).prio ∧ since a < since b

/-- A wait list: first the entries `ms` of `poll`, then the threads `ts` that wait, in order. -/
structure InOrder (s : Sched) (since : Nat → Nat) (w : Waitable) (ms ts : List Nat) : Prop where
  list : s.wait w = ms ++ ts
  entries : ∀ m ∈ ms, (s.task m).state = .muxedSleep
  waiters : ∀ t ∈ ts, (s.task t).state = .sleeping
  order : ts.Pairwise (s.Before since)

/-- What a wakeup of one does to a list: the entries of `poll` are taken off and their threads
told, and of the threads that wait the first one goes on, which has the highest priority. -/
structure Released (s s' : Sched) (w : Waitable) (ms ts : List Nat) : Prop where
  entries : ∀ m ∈ ms, (s'.task m).state = .none
  told : ∀ m ∈ ms, ∀ owner index, (s.task m).mux = some (owner, index) → s'.which owner ≠ none
  rest : s'.wait w = ts.tail
  waiting : ∀ t ∈ ts.tail, s'.task t = s.task t
  first : ∀ t ∈ ts.head?, ((s'.task t).state = .ready ∨ (s'.task t).state = .running) ∧
    ∀ u ∈ ts, (s.task u).prio ≤ (s.task t).prio
  others : ∀ t, (s.task t).link = none → s'.task t = s.task t
  which : ∀ t, s.which t ≠ none → s'.which t ≠ none

/-- A task on a list sleeps. `fresh` is the first task that is not in use, and `clock` is later
than every sleep. -/
structure Fine (since : Nat → Nat) (clock fresh t : Nat) (x : Task) : Prop where
  waits : ∀ w, x.link = some w → x.state = .sleeping ∨ x.state = .muxedSleep ∧ ∃ n, w = .obj n
  stamp : x.state = .sleeping → since t < clock
  used : fresh ≤ t → x.state = .none
  idle : t = idle → x.state = .running ∨ x.state = .ready

/-- The wait lists agree with the links of the tasks and are in order. -/
structure Tidy (s : Sched) (since : Nat → Nat) (clock fresh : Nat) : Prop where
  placed : Placed s.wait fun t => (s.task t).link
  order : ∀ w, ∃ ms ts, s.InOrder since w ms ts
  fine : ∀ t, Fine since clock fresh t (s.task t)
  current : s.current < fresh

variable {s s' : Sched} {since : Nat → Nat} {clock fresh fresh' t : Nat} {w : Waitable}

/-! ## Lists -/

namespace Tidy

variable (h : s.Tidy since clock fresh)
include h

theorem link_of_mem (hmem : t ∈ s.wait w) : (s.task t).link = some w :=
  (h.placed.mem t w).mp hmem

theorem sleepers : s.Sleepers := by
  intro t w hl
  rcases (h.fine t).waits w hl with hs | ⟨hs, n, rfl⟩
  · exact .inl hs
  · exact .inr ⟨hs, fun u hu => by cases hu⟩

theorem link_eq_none {x : TaskState}
    (hs : (s.task t).state = x) (hx : x ≠ .sleeping ∧ x ≠ .muxedSleep) :
    (s.task t).link = none := by
  cases hl : (s.task t).link with
  | none => rfl
  | some w =>
    rcases (h.fine t).waits w hl with hs' | ⟨hm', -⟩
    · exact absurd (hs.symm.trans hs') hx.1
    · exact absurd (hs.symm.trans hm') hx.2

theorem lt_fresh {x : TaskState}
    (hs : (s.task t).state = x) (hx : x ≠ .none) : t < fresh := by
  by_contra hle
  exact hx (hs.symm.trans ((h.fine t).used (Nat.le_of_not_lt hle)))

theorem idle_lt : Sched.idle < fresh := by
  rcases (h.fine _).idle rfl with hi | hi <;> exact h.lt_fresh hi (by decide)

/-- On the list of a mutex or of a thread in `poll` there are threads only. -/
theorem sleeping_of_link (hl : (s.task t).link = some w) (hw : ∀ n, w ≠ .obj n) :
    (s.task t).state = .sleeping := by
  rcases (h.fine t).waits w hl with hs | ⟨-, n, hn⟩
  · exact hs
  · exact absurd hn (hw n)

theorem ne_of_mem {u : Nat} (hl : (s.task t).link = none) (hu : u ∈ s.wait w) : u ≠ t := by
  rintro rfl
  exact h.placed.notMem hl w hu

/-- To take a task off its list is to take it off every list. -/
theorem listRemove_wait (t : Nat) (w : Waitable) :
    (s.listRemove t).wait w = (s.wait w).erase t := by
  have hmem := h.placed.mem t w
  unfold Sched.listRemove
  split
  · rename_i hl
    rw [erase_of_not_mem]
    rw [hmem, hl]
    exact fun hn => by cases hn
  · rename_i w' hl
    by_cases hw : w = w'
    · subst hw
      simp only [update_self]
    · simp only [update_of_ne hw]
      rw [erase_of_not_mem]
      rw [hmem, hl]
      exact fun hs => hw (Option.some.inj hs).symm

end Tidy

variable {ms ts : List Nat} {x : Task}

/-- The order of a list is a matter of the tasks on it. -/
theorem InOrder.congr {since' : Nat → Nat} {ms' ts' : List Nat}
    (h : s.InOrder since w ms ts) (hlist : s'.wait w = ms' ++ ts') (hms : ms'.Sublist ms)
    (hts : ts'.Sublist ts) (htask : ∀ t ∈ ms' ++ ts', s'.task t = s.task t)
    (hsince : ∀ t ∈ ts', since' t = since t) : s'.InOrder since' w ms' ts' := by
  have htask' : ∀ t ∈ ts', s'.task t = s.task t := fun t ht =>
    htask t (mem_append_right _ ht)
  refine ⟨hlist, fun m hm => ?_, fun t ht => ?_, ?_⟩
  · rw [htask m (mem_append_left _ hm)]
    exact h.entries m (hms.subset hm)
  · rw [htask' t ht]
    exact h.waiters t (hts.subset ht)
  · refine (h.order.sublist hts).imp_of_mem fun {a b} ha hb hab => ?_
    unfold Before
    rw [htask' a ha, htask' b hb, hsince a ha, hsince b hb]
    exact hab

theorem listRemove_of_none (h : (s.task t).link = none) : s.listRemove t = s := by
  unfold Sched.listRemove
  rw [h]

@[simp] theorem makeRunnable_wait (s : Sched) (t : Nat) : (s.makeRunnable t).wait = s.wait := by
  unfold makeRunnable
  split <;> rfl

/-! ## Leaving a list -/

section

variable (h : s.Tidy since clock fresh)
include h

/-- One task changes. -/
theorem Tidy.fine_update {since' : Nat → Nat} {clock' : Nat} (htask : s'.task = update s.task t x)
    (hsince : ∀ u, u ≠ t → since' u = since u) (hclock : clock ≤ clock') (hfresh : fresh ≤ fresh')
    (hx : Fine since' clock' fresh' t x) (u : Nat) : Fine since' clock' fresh' u (s'.task u) := by
  rw [htask]
  by_cases hu : u = t
  · rw [hu, update_self]
    exact hx
  have hfine := h.fine u
  rw [update_of_ne hu]
  refine { hfine with stamp := fun hs => ?_, used := fun hle => hfine.used (hfresh.trans hle) }
  rw [hsince u hu]
  exact Nat.lt_of_lt_of_le (hfine.stamp hs) hclock

/-- A task leaves the list that it is on, if any, and is not asleep. -/
theorem Tidy.take (hwait : s'.wait = (s.listRemove t).wait) (htask : s'.task = update s.task t x)
    (hlink : x.link = none) (hstate : x.state ≠ .sleeping) (hlt : t < fresh')
    (hfresh : fresh ≤ fresh') (hcur : s'.current < fresh')
    (hidle : t = Sched.idle → x.state = .running ∨ x.state = .ready) :
    s'.Tidy since clock fresh' := by
  have hne {u : Nat} (hu : u ≠ t) : s'.task u = s.task u := by rw [htask, update_of_ne hu]
  have hself : s'.task t = x := by rw [htask, update_self]
  have hlists (w : Waitable) : s'.wait w = (s.wait w).erase t := by
    rw [hwait, h.listRemove_wait]
  refine ⟨⟨fun u w => ?_, fun w => ?_⟩, fun w => ?_, h.fine_update htask (fun _ _ => rfl) le_rfl
    hfresh ⟨fun w hl => ?_, fun hs => absurd hs hstate, fun hle => absurd hlt (Nat.not_lt.mpr hle),
      hidle⟩, hcur⟩
  · rw [hlists, (h.placed.nodup w).mem_erase_iff]
    by_cases hu : u = t
    · subst hu
      simp [hself, hlink]
    · rw [hne hu]
      simpa [hu] using h.placed.mem u w
  · rw [hlists]
    exact (h.placed.nodup w).erase t
  · obtain ⟨ms, ts, hin⟩ := h.order w
    have hnodup := h.placed.nodup w
    rw [hin.list] at hnodup
    have hsplit : s'.wait w = ms.erase t ++ ts.erase t := by
      rw [hlists, hin.list, erase_append]
      split
      · rename_i hmem
        rw [erase_of_not_mem (disjoint_of_nodup_append hnodup hmem)]
      · rename_i hmem
        rw [erase_of_not_mem hmem]
    refine ⟨ms.erase t, ts.erase t, hin.congr hsplit erase_sublist erase_sublist
      (fun u hu => hne ?_) fun u _ => rfl⟩
    rintro rfl
    rw [← hsplit, hlists, hin.list] at hu
    exact hnodup.not_mem_erase hu
  · rw [hlink] at hl
    cases hl

/-- A thread or an entry of `poll` ends its sleep. -/
theorem Tidy.leave (hs : (s.task t).state = .sleeping ∨ (s.task t).state = .muxedSleep)
    (hwait : s'.wait = (s.listRemove t).wait) (htask : s'.task = update s.task t x)
    (hlink : x.link = none) (hstate : x.state ≠ .sleeping) (hcur : s'.current = s.current) :
    s'.Tidy since clock fresh := by
  have hlt : t < fresh := hs.elim (h.lt_fresh · (by decide)) (h.lt_fresh · (by decide))
  refine h.take hwait htask hlink hstate hlt le_rfl (hcur ▸ h.current) ?_
  rintro rfl
  rcases (h.fine _).idle rfl with hi | hi <;> rw [hi] at hs <;> rcases hs with hs | hs <;> cases hs

theorem Tidy.wakeTask
    (hs : (s.task t).state = .sleeping) : (s.wakeTask t).Tidy since clock fresh := by
  refine h.leave (.inl hs) (makeRunnable_wait _ t) (s.wakeTask_task t) rfl ?_ (wakeTask_current s t)
  unfold awake
  by_cases ht : t = s.current <;> simp [ht]

omit h in
theorem unlink_task (s : Sched) (t : Nat) : ((s.listRemove t).setState t .none).task =
    update s.task t { s.task t with link := none, state := .none } := by
  simp [Sched.setState]

omit h in
theorem unlock_task (s : Sched) (t : Nat) : ((s.listRemove t).readyqueueInsert t).task =
    update s.task t { s.task t with link := none, state := .ready } := by
  simp [Sched.readyqueueInsert]

theorem Tidy.unlink (hs : (s.task t).state = .muxedSleep) :
    ((s.listRemove t).setState t .none).Tidy since clock fresh :=
  h.leave (.inr hs) rfl (unlink_task s t) rfl (show TaskState.none ≠ .sleeping by decide)
    (listRemove_current s t)

theorem Tidy.which (f : Nat → Option Nat) : { s with which := f }.Tidy since clock fresh := by
  refine { h with order := fun w => ?_ }
  obtain ⟨ms, ts, hin⟩ := h.order w
  exact ⟨ms, ts, { hin with }⟩

omit h in
theorem tidy_kept_by_waking (since : Nat → Nat) (clock fresh : Nat) :
    KeptByWaking fun s => s.Tidy since clock fresh where
  wake := fun h hs _ => h.wakeTask hs
  unlink := fun h hs => h.unlink hs
  which := fun h f => h.which f

theorem Tidy.taskWakeup (w : Waitable) (all : Bool) : (s.taskWakeup w all).Tidy since clock fresh :=
  (tidy_kept_by_waking since clock fresh).taskWakeup (fun h => h.link_of_mem)
    (fun h => h.sleepers) h w all

/-- `mutex_unlock_sched_locked`, and any other end of a sleep. -/
theorem Tidy.unlock (hs : (s.task t).state = .sleeping) :
    ((s.listRemove t).readyqueueInsert t).Tidy since clock fresh :=
  h.leave (.inl hs) rfl (unlock_task s t) rfl (show TaskState.ready ≠ .sleeping by decide)
    (listRemove_current s t)

theorem Tidy.unlist (ms : List Nat) : (World.unlist ms s).Tidy since clock fresh := by
  induction ms generalizing s with
  | nil => exact h
  | cons m ms ih =>
    unfold World.unlist
    apply ih
    split
    · rename_i hs
      refine h.leave (.inr hs) rfl (listRemove_task s m) rfl ?_ (listRemove_current s m)
      rw [hs]
      decide
    · exact h

omit h in
/-- The entries that are taken off keep their state. -/
theorem unlist_same (ms : List Nat) (s : Sched) : (World.unlist ms s).current = s.current ∧
    ∀ t, ((World.unlist ms s).task t).state = (s.task t).state := by
  induction ms generalizing s with
  | nil => exact ⟨rfl, fun _ => rfl⟩
  | cons m ms ih =>
    unfold World.unlist
    obtain ⟨hcur, hstate⟩ := ih (if (s.task m).state = .muxedSleep then s.listRemove m else s)
    refine ⟨hcur.trans ?_, fun t => (hstate t).trans ?_⟩
    · split
      · exact listRemove_current s m
      · rfl
    · split
      · rw [listRemove_task]
        by_cases ht : t = m <;> simp [ht]
      · rfl

theorem Tidy.requeue : s.requeue.Tidy since clock fresh := by
  unfold Sched.requeue
  split
  · rename_i hs
    have hl := h.link_eq_none hs (by decide)
    refine h.take ?_ rfl hl
      (show TaskState.ready ≠ .sleeping by decide) h.current le_rfl h.current
      fun _ => .inr rfl
    rw [listRemove_of_none hl]
    rfl
  · exact h

theorem Tidy.switchTo
    (hs : (s.task t).state = .ready ∨ t = Sched.idle) : (s.switchTo t).Tidy since clock fresh := by
  obtain ⟨hl, hlt⟩ : (s.task t).link = none ∧ t < fresh := by
    rcases hs with hs | rfl
    · exact ⟨h.link_eq_none hs (by decide), h.lt_fresh hs (by decide)⟩
    · rcases (h.fine _).idle rfl with hi | hi <;> exact ⟨h.link_eq_none hi (by decide), h.idle_lt⟩
  refine h.take ?_ rfl hl
    (show TaskState.running ≠ .sleeping by decide) hlt le_rfl hlt fun _ => .inl rfl
  rw [listRemove_of_none hl]
  rfl

theorem Tidy.threadCreate (detached : Bool) (prio : Nat) :
    (s.threadCreate fresh detached prio).Tidy since clock (fresh + 1) := by
  have hs := (h.fine fresh).used le_rfl
  have hl := h.link_eq_none hs (by decide)
  refine h.take ?_ rfl rfl
    (show TaskState.ready ≠ .sleeping by decide) (Nat.lt_succ_self _) (Nat.le_succ _)
    (Nat.lt_succ_of_lt h.current) fun _ => .inr rfl
  rw [listRemove_of_none hl]
  rfl

/-! ## Entering a list -/

/-- A task that is on no list is put on one. -/
theorem Tidy.insert
    {l : List Nat} {since' : Nat → Nat} {clock' : Nat} (hnone : (s.task t).link = none)
    (hwait : s'.wait = update s.wait w l) (htask : s'.task = update s.task t x)
    (hlink : x.link = some w) (hl : l.Perm (t :: s.wait w))
    (hx : x.state = .sleeping ∨ x.state = .muxedSleep ∧ ∃ n, w = .obj n)
    (hin : ∃ ms ts, s'.InOrder since' w ms ts) (hsince : ∀ u, u ≠ t → since' u = since u)
    (hclock : clock ≤ clock') (hstamp : x.state = .sleeping → since' t < clock')
    (hlt : t < fresh') (hfresh : fresh ≤ fresh') (hidle : t ≠ Sched.idle)
    (hcur : s'.current = s.current) : s'.Tidy since' clock' fresh' := by
  have hne {u : Nat} (hu : u ≠ t) : s'.task u = s.task u := by rw [htask, update_of_ne hu]
  have hself : s'.task t = x := by rw [htask, update_self]
  have hplaced := h.placed.insert hnone hl
  have hloc : (fun u => (s'.task u).link) = update (fun u => (s.task u).link) t (some w) := by
    funext u
    by_cases hu : u = t
    · subst hu
      rw [hself, update_self, hlink]
    · rw [hne hu, update_of_ne hu]
  refine ⟨?_, fun w' => ?_, h.fine_update htask hsince hclock hfresh ⟨fun w' hw => ?_, hstamp,
    fun hle => absurd hlt (Nat.not_lt.mpr hle), fun hi => absurd hi hidle⟩, ?_⟩
  · rw [hwait, hloc]
    exact hplaced
  · by_cases hw : w' = w
    · subst hw
      exact hin
    obtain ⟨ms, ts, hin⟩ := h.order w'
    have hlist : s'.wait w' = ms ++ ts := by rw [hwait, update_of_ne hw, hin.list]
    have hnot {u : Nat} (hu : u ∈ ms ++ ts) : u ≠ t := h.ne_of_mem hnone (hin.list ▸ hu)
    exact ⟨ms, ts, hin.congr hlist (.refl _) (.refl _) (fun u hu => hne (hnot hu))
      fun u hu => hsince u (hnot (mem_append_right _ hu))⟩
  · rw [hlink] at hw
    cases hw
    exact hx
  · rw [hcur]
    exact Nat.lt_of_lt_of_le h.current hfresh

/-- Only the lists of waitables have entries of `poll`. -/
theorem Tidy.entry_waitable {m : Nat}
    (hmem : m ∈ s.wait w) (hs : (s.task m).state = .muxedSleep) : ∃ n, w = .obj n := by
  rcases (h.fine m).waits w (h.link_of_mem hmem) with hs' | ⟨-, hw⟩
  · rw [hs] at hs'
    cases hs'
  · exact hw

/-- The current thread goes behind those of its priority. -/
theorem Tidy.taskSleep (hrun : (s.task s.current).state = .running) (hidle : s.current ≠ Sched.idle)
    (hnone : ∀ m ∈ s.wait w, (s.task m).state = .muxedSleep →
      (s.task s.current).prio ≤ (s.task m).prio) :
    (s.taskSleep w).Tidy (update since s.current clock) (clock + 1) fresh := by
  have hl := h.link_eq_none hrun (by decide)
  obtain ⟨ms, ts, hin⟩ := h.order w
  have hnot {u : Nat} (hu : u ∈ ms ++ ts) : u ≠ s.current := h.ne_of_mem hl (hin.list ▸ hu)
  have hprio (u : Nat) : ((s.setState s.current .sleeping).task u).prio = (s.task u).prio := by
    by_cases hu : u = s.current <;> simp [Sched.setState, hu]
  have htask {u : Nat} (hu : u ≠ s.current) : (s.taskSleep w).task u = s.task u := by
    rw [taskSleep_task, update_of_ne hu]
  have hlist : (s.taskSleep w).wait w =
      ms ++ ts.orderedInsert (fun a b => (s.task b).prio < (s.task a).prio) s.current := by
    simp only [Sched.taskSleep, Sched.taskInsertWaitList, update_self, hprio]
    rw [← Lists.orderedInsert_append, ← hin.list]
    · rfl
    · intro m hm
      have hmem : m ∈ s.wait w := hin.list ▸ mem_append_left _ hm
      exact Nat.not_lt.mpr (hnone m hmem (hin.entries m hm))
  have hwait : (s.taskSleep w).wait = update s.wait w ((s.taskSleep w).wait w) := by
    simp [Sched.taskSleep, Sched.taskInsertWaitList, Sched.setState]
  refine h.insert hl hwait (s.taskSleep_task w) rfl ?_ (.inl rfl) ⟨ms, _, hlist, fun m hm => ?_,
    fun t ht => ?_, ?_⟩ (fun u hu => update_of_ne hu _ _) (Nat.le_succ _)
    (fun _ => by rw [update_self]; exact Nat.lt_succ_self _) h.current le_rfl hidle rfl
  · rw [hlist, hin.list]
    exact ((perm_orderedInsert _ _ ts).append_left ms).trans perm_middle
  · rw [htask (hnot (mem_append_left _ hm))]
    exact hin.entries m hm
  · rcases mem_cons.mp ((perm_orderedInsert _ _ ts).mem_iff.mp ht) with rfl | ht
    · rw [taskSleep_task, update_self]
    · rw [htask (hnot (mem_append_right _ ht))]
      exact hin.waiters t ht
  · have hcur : ((s.taskSleep w).task s.current).prio = (s.task s.current).prio := by
      rw [taskSleep_task, update_self]
    have hbefore {a b : Nat} (ha : a ∈ ts) (hb : b ∈ ts) (hab : s.Before since a b) :
        (s.taskSleep w).Before (update since s.current clock) a b := by
      have ha' := hnot (mem_append_right ms ha)
      have hb' := hnot (mem_append_right ms hb)
      unfold Before
      rw [htask ha', htask hb', update_of_ne ha', update_of_ne hb']
      exact hab
    refine Lists.pairwise_orderedInsert (hin.order.imp_of_mem fun ha hb => hbefore ha hb)
      (fun y hy hlt => .inl ?_) (fun y hy hle => ?_) fun y hy z hz hlt hyz => ?_
    · rw [hcur, htask (hnot (mem_append_right _ hy))]
      exact hlt
    · -- as high or higher, and there before
      have hy' := hnot (mem_append_right ms hy)
      have hstamp := (h.fine y).stamp (hin.waiters y hy)
      unfold Before
      rw [hcur, htask hy', update_self, update_of_ne hy']
      omega
    · unfold Before at hyz
      rw [htask (hnot (mem_append_right ms hy)),
        htask (hnot (mem_append_right ms hz))] at hyz
      omega

theorem Tidy.enlist (n prio owner index : Nat) : { s with
      task := update s.task fresh
        ⟨false, false, prio, .muxedSleep, some (.obj n), some (owner, index)⟩
      wait := update s.wait (.obj n) (fresh :: s.wait (.obj n)) }.Tidy since clock (fresh + 1) := by
  have hs := (h.fine fresh).used le_rfl
  have hl := h.link_eq_none hs (by decide)
  obtain ⟨ms, ts, hin⟩ := h.order (.obj n)
  have hnot {u : Nat} (hu : u ∈ ms ++ ts) : u ≠ fresh := h.ne_of_mem hl (hin.list ▸ hu)
  refine h.insert hl rfl rfl rfl (.refl _) (.inr ⟨rfl, n, rfl⟩)
    ⟨fresh :: ms, ts, ?_, fun m hm => ?_, fun t ht => ?_, ?_⟩ (fun _ _ => rfl) le_rfl
    (fun hm => by cases hm) (Nat.lt_succ_self _) (Nat.le_succ _) (Nat.ne_of_gt h.idle_lt) rfl
  · simp only [update_self, hin.list, cons_append]
  · rcases mem_cons.mp hm with rfl | hm
    · simp only [update_self]
    · simp only [update_of_ne (hnot (mem_append_left _ hm))]
      exact hin.entries m hm
  · simp only [update_of_ne (hnot (mem_append_right _ ht))]
    exact hin.waiters t ht
  refine hin.order.imp_of_mem fun {a b} ha hb hab => ?_
  unfold Before
  simp only [update_of_ne (hnot (mem_append_right _ ha)),
    update_of_ne (hnot (mem_append_right _ hb))]
  exact hab

end

/-! ## A wakeup of one -/

/-- Of the threads that wait the first has the highest priority. -/
theorem InOrder.prio_le (h : s.InOrder since w ms ts) :
    ∀ t ∈ ts.head?, ∀ u ∈ ts, (s.task u).prio ≤ (s.task t).prio := by
  intro t ht u hu
  cases ts with
  | nil => cases hu
  | cons a ts =>
    obtain rfl : a = t := Option.some.inj ht
    rcases mem_cons.mp hu with rfl | hu
    · exact le_rfl
    · rcases (pairwise_cons.mp h.order).1 u hu with hlt | ⟨heq, -⟩
      · exact hlt.le
      · exact Nat.le_of_eq heq.symm

@[simp] theorem listRemove_which (s : Sched) (t : Nat) : (s.listRemove t).which = s.which := by
  unfold Sched.listRemove
  split <;> rfl

@[simp] theorem wakeTask_which (s : Sched) (t : Nat) : (s.wakeTask t).which = s.which := by
  unfold Sched.wakeTask makeRunnable
  split <;> exact listRemove_which s t

section

variable (h : s.Tidy since clock fresh)
include h

/-- To wake a thread in `poll` touches nothing but the thread and its own list. -/
theorem Tidy.wakePoller_same (owner : Nat) :
    (∀ n, (s.wakePoller owner).wait (.obj n) = s.wait (.obj n)) ∧
      (∀ u, (∀ o, (s.task u).link ≠ some (.poll o)) → (s.wakePoller owner).task u = s.task u) ∧
      (s.wakePoller owner).which = s.which := by
  unfold Sched.wakePoller
  split
  · exact ⟨fun _ => rfl, fun _ _ => rfl, rfl⟩
  rename_i t rest hw
  have hl : (s.task t).link = some (.poll owner) := h.link_of_mem (hw ▸ mem_cons_self)
  refine ⟨fun n => ?_, fun u hu => ?_, wakeTask_which s t⟩
  · rw [Sched.wakeTask, makeRunnable_wait, h.listRemove_wait, erase_of_not_mem]
    intro hmem
    rw [h.link_of_mem hmem] at hl
    cases hl
  · rw [wakeTask_task, update_of_ne]
    rintro rfl
    exact hu owner hl

/-- What it is to take an entry of a `poll` off its list. -/
structure EntryTaken (s s' : Sched) (n m : Nat) : Prop where
  wait : s'.wait (.obj n) = (s.wait (.obj n)).erase m
  task : ∀ u, u ≠ m → (∀ o, (s.task u).link ≠ some (.poll o)) → s'.task u = s.task u
  entry : (s'.task m).state = .none ∧ (s'.task m).link = none
  which : ∀ t, s.which t ≠ none → s'.which t ≠ none
  told : ∀ owner index, (s.task m).mux = some (owner, index) → s'.which owner ≠ none

theorem Tidy.wakeMuxed {n m : Nat}
    (hs : (s.task m).state = .muxedSleep) : s.EntryTaken (s.wakeMuxed m) n m := by
  have htask := unlink_task s m
  have hwait : ((s.listRemove m).setState m .none).wait (.obj n) = (s.wait (.obj n)).erase m :=
    h.listRemove_wait m (.obj n)
  have hwhich : ((s.listRemove m).setState m .none).which = s.which := listRemove_which s m
  have htidy := h.unlink hs
  unfold Sched.wakeMuxed
  dsimp only
  generalize (s.listRemove m).setState m .none = s₁ at htask hwait hwhich htidy
  have hself : s₁.task m = { s.task m with link := none, state := .none } := by
    rw [htask, update_self]
  have hne {u : Nat} (hu : u ≠ m) : s₁.task u = s.task u := by rw [htask, update_of_ne hu]
  have hentry : (s₁.task m).state = .none ∧ (s₁.task m).link = none := by rw [hself]; exact ⟨rfl, rfl⟩
  have hmux : (s₁.task m).mux = (s.task m).mux := by rw [hself]
  split
  · rename_i hnone
    refine ⟨hwait, fun u hu _ => hne hu, hentry, fun t ht => by rwa [hwhich], fun o i hm => ?_⟩
    rw [← hmux, hnone] at hm
    cases hm
  · rename_i owner index hsome
    have howner {o i : Nat} (hm : (s.task m).mux = some (o, i)) : o = owner := by
      rw [← hmux, hsome] at hm
      exact (congrArg Prod.fst (Option.some.inj hm)).symm
    split
    · obtain ⟨h₁, h₂, h₃⟩ := (htidy.which (update s₁.which owner (some index))).wakePoller_same owner
      refine ⟨(h₁ n).trans hwait, fun u hu hl => ?_, ?_, fun t ht => ?_, fun o i hm => ?_⟩
      · rw [h₂ u (by rw [hne hu]; exact hl), hne hu]
      · rw [h₂ m (by rw [hentry.2]; exact fun o hn => by cases hn)]
        exact hentry
      · rw [h₃]
        by_cases hto : t = owner
        · simp [hto]
        · simpa [hto, hwhich] using ht
      · rw [h₃, howner hm]
        simp
    · rename_i hnn
      refine ⟨hwait, fun u hu _ => hne hu, hentry, fun t ht => by rwa [hwhich], fun o i hm => ?_⟩
      rw [howner hm]
      exact hnn

/-- The first of a list without entries goes on, and nothing else happens. -/
theorem Tidy.released_first (hin : s.InOrder since w [] (t :: ts))
    (hwait : s'.wait = (s.listRemove t).wait)
    (htask : s'.task = update s.task t x) (hx : x.state = .ready ∨ x.state = .running)
    (hwhich : s'.which = s.which) : s.Released s' w [] (t :: ts) := by
  have hlist : s.wait w = t :: ts := hin.list
  have hl : (s.task t).link = some w := h.link_of_mem (hlist ▸ mem_cons_self)
  have hnodup := h.placed.nodup w
  rw [hlist] at hnodup
  have hne {u : Nat} (hu : u ≠ t) : s'.task u = s.task u := by rw [htask, update_of_ne hu]
  constructor
  case entries | told =>
    intro m hm
    cases hm
  case rest => rw [hwait, h.listRemove_wait, hlist, erase_cons_head, tail_cons]
  case waiting =>
    intro u hu
    apply hne
    rintro rfl
    exact (nodup_cons.mp hnodup).1 hu
  case first =>
    intro u hu
    refine ⟨?_, hin.prio_le u hu⟩
    obtain rfl : t = u := Option.some.inj hu
    rw [htask, update_self]
    exact hx
  case others =>
    intro u hu
    apply hne
    rintro rfl
    rw [hu] at hl
    cases hl
  case which =>
    intro u hu
    rw [hwhich]
    exact hu

omit h in
theorem released_nil (h : s.wait w = []) : s.Released s w [] [] := by
  constructor
  case rest => exact h
  case others => exact fun _ _ => rfl
  case which => exact fun _ ht => ht
  all_goals
    intro t ht
    cases ht

/-- By induction over the entries of `poll` in front. -/
theorem Tidy.wakeLoop_one {n fuel : Nat}
    (hin : s.InOrder since (.obj n) ms ts) (hfuel : (ms ++ ts).length ≤ fuel) :
    s.Released (wakeLoop fuel s (.obj n) false) (.obj n) ms ts := by
  induction ms generalizing s fuel with
  | nil =>
    cases ts with
    | nil =>
      have hloop : wakeLoop fuel s (.obj n) false = s := by
        cases fuel with
        | zero => rfl
        | succ fuel => simp only [Sched.wakeLoop, hin.list, append_nil]
      rw [hloop]
      exact released_nil hin.list
    | cons t ts =>
      obtain ⟨fuel, rfl⟩ : ∃ f, fuel = f + 1 := ⟨fuel - 1, by simp at hfuel; omega⟩
      have hs := hin.waiters t (.head _)
      have hmuxed : (s.task t).state ≠ .muxedSleep := by rw [hs]; decide
      have hlist : s.wait (.obj n) = t :: ts := hin.list
      have hloop : wakeLoop (fuel + 1) s (.obj n) false = s.wakeTask t := by
        simp only [Sched.wakeLoop, hlist, if_neg hmuxed, Bool.false_eq_true, if_false]
      rw [hloop]
      refine h.released_first hin (makeRunnable_wait _ t) (s.wakeTask_task t) ?_ (wakeTask_which s t)
      by_cases ht : t = s.current <;> simp [awake, ht]
  | cons m ms ih =>
    obtain ⟨fuel, rfl⟩ : ∃ f, fuel = f + 1 := ⟨fuel - 1, by simp at hfuel; omega⟩
    have hs := hin.entries m (.head _)
    have hlist : s.wait (.obj n) = m :: (ms ++ ts) := hin.list
    have hloop : wakeLoop (fuel + 1) s (.obj n) false =
        wakeLoop fuel (s.wakeMuxed m) (.obj n) false := by
      simp only [Sched.wakeLoop, hlist, if_pos hs]
    have htaken : s.EntryTaken (s.wakeMuxed m) n m := h.wakeMuxed hs
    have htidy : (s.wakeMuxed m).Tidy since clock fresh :=
      (tidy_kept_by_waking since clock fresh).wakeMuxed (fun h => h.link_of_mem)
        (fun h => h.sleepers) h hs
    rw [hloop]
    generalize s.wakeMuxed m = s₁ at htaken htidy
    have hnodup := h.placed.nodup (.obj n)
    rw [hlist] at hnodup
    have hsame {u : Nat} (hu : u ∈ ms ++ ts) : s₁.task u = s.task u := by
      refine htaken.task u ?_ fun o ho => ?_
      · rintro rfl
        exact (nodup_cons.mp hnodup).1 hu
      · have hl : (s.task u).link = some (.obj n) :=
          h.link_of_mem (hlist ▸ mem_cons_of_mem m hu)
        rw [ho] at hl
        cases hl
    have hlist' : s₁.wait (.obj n) = ms ++ ts := by
      rw [htaken.wait, hlist, erase_cons_head]
    have hin' : s₁.InOrder since (.obj n) ms ts :=
      hin.congr hlist' (sublist_cons_self m ms) (.refl _) (fun u hu => hsame hu) fun _ _ => rfl
    have hrel := ih htidy hin' (by simp at hfuel ⊢; omega)
    have hts {u : Nat} (hu : u ∈ ts) : s₁.task u = s.task u := hsame (mem_append_right _ hu)
    refine ⟨fun u hu => ?_, fun u hu o i hmux => ?_, hrel.rest, fun u hu => ?_, fun u hu => ?_,
      fun u hu => ?_, fun u hu => hrel.which u (htaken.which u hu)⟩
    · rcases mem_cons.mp hu with rfl | hu
      · rw [hrel.others u htaken.entry.2]
        exact htaken.entry.1
      · exact hrel.entries u hu
    · rcases mem_cons.mp hu with rfl | hu
      · exact hrel.which o (htaken.told o i hmux)
      · refine hrel.told u hu o i ?_
        rw [hsame (mem_append_left _ hu)]
        exact hmux
    · rw [hrel.waiting u hu, hts (mem_of_mem_tail hu)]
    · obtain ⟨hstate, hprio⟩ := hrel.first u hu
      exact ⟨hstate, hin.prio_le u hu⟩
    have hsame' : s₁.task u = s.task u := by
      refine htaken.task u ?_ fun o ho => ?_
      · rintro rfl
        rw [h.link_of_mem (hlist ▸ mem_cons_self)] at hu
        cases hu
      · rw [hu] at ho
        cases ho
    rw [hrel.others u (by rw [hsame']; exact hu), hsame']

/-- `mutex_unlock_sched_locked` -/
theorem Tidy.unlock_one (hin : s.InOrder since w [] (t :: ts)) :
    s.Released ((s.listRemove t).readyqueueInsert t) w [] (t :: ts) :=
  h.released_first hin rfl (unlock_task s t) (.inl rfl) (listRemove_which s t)

/-- On the list of a mutex there are threads only. -/
theorem Tidy.no_entries (hw : ∀ n, w ≠ .obj n) (hin : s.InOrder since w ms ts) : ms = [] := by
  apply eq_nil_iff_forall_not_mem.mpr
  intro m hm
  obtain ⟨n, rfl⟩ := h.entry_waitable (hin.list ▸ mem_append_left _ hm) (hin.entries m hm)
  exact hw n rfl

end

end Sched

namespace Waiting

variable {k k' : Waiting}

structure Inv (k : Waiting) : Prop where
  tidy : k.sched.Tidy k.since k.clock k.fresh
  idle : k.pc Sched.idle = .user

theorem inv_init : init.Inv := by
  have htask (t : Nat) : (init.sched.task t).link = none ∧
      ((init.sched.task t).state = if t = Sched.idle then .running else .none) := by
    by_cases ht : t = Sched.idle <;> simp [init, World.init, Sched.setState, ht]
  refine ⟨⟨⟨fun t w => ?_, fun w => nodup_nil⟩,
    fun w => ⟨[], [], rfl, fun m hm => (by cases hm), fun t ht => (by cases ht), .nil⟩,
    fun t => ⟨fun w hl => ?_, fun hs => ?_, fun ht => ?_, fun ht => ?_⟩, (by decide)⟩, rfl⟩
  · rw [(htask t).1]
    exact ⟨fun hm => (by cases hm), fun hn => (by cases hn)⟩
  · rw [(htask t).1] at hl
    cases hl
  · rw [(htask t).2] at hs
    split at hs <;> cases hs
  · rw [(htask t).2, if_neg]
    rintro rfl
    exact absurd ht (by decide)
  · rw [(htask t).2, if_pos ht]
    exact .inl rfl

/-! ## Steps -/

section

variable (h : k.Inv)
include h

theorem Inv.setPc (hidle : k.sched.current ≠ Sched.idle) (pc : WaitPc) : (k.setPc pc).Inv := by
  refine ⟨h.tidy, ?_⟩
  have hsame : (k.setPc pc).pc Sched.idle = k.pc Sched.idle := update_of_ne (Ne.symm hidle) _ _
  rw [hsame]
  exact h.idle

theorem Inv.mutexUnlock (m : Nat) : (k.mutexUnlock m).Inv := by
  unfold Waiting.mutexUnlock
  dsimp only
  split
  · exact ⟨h.tidy, h.idle⟩
  · rename_i t rest hw
    have hmem : t ∈ k.sched.wait (.mutex m) := hw ▸ mem_cons_self
    exact ⟨h.tidy.unlock (h.tidy.sleeping_of_link (h.tidy.link_of_mem hmem) (by simp)), h.idle⟩

/-- A mutex is unlocked by a thread, which is not one of those that wait. -/
theorem mutexUnlock_same (hrun : k.executes) (m : Nat) :
    (k.mutexUnlock m).executes ∧ (k.mutexUnlock m).sched.current = k.sched.current ∧
      ∀ n, k.NoneBelow n → (k.mutexUnlock m).NoneBelow n := by
  unfold Waiting.mutexUnlock
  dsimp only
  split
  · exact ⟨hrun, rfl, fun n hn => hn⟩
  rename_i t rest hw
  have hl : (k.sched.task t).link = some (.mutex m) := h.tidy.link_of_mem (hw ▸ mem_cons_self)
  have hs := h.tidy.sleeping_of_link hl (by simp)
  have htask {u : Nat} (hu : u ≠ t) :
      ((k.sched.listRemove t).readyqueueInsert t).task u = k.sched.task u := by
    simp [Sched.readyqueueInsert, hu]
  have hcur : ((k.sched.listRemove t).readyqueueInsert t).current = k.sched.current :=
    k.sched.listRemove_current t
  have hne : k.sched.current ≠ t := by
    rintro rfl
    rw [executes, hs] at hrun
    cases hrun
  refine ⟨?_, hcur, fun n hn u hu hs => ?_⟩
  · simp only [executes, hcur, htask hne]
    exact hrun
  have hu' : u ∈ k.sched.wait (.obj n) := by
    have hwait := h.tidy.listRemove_wait t (.obj n)
    exact mem_of_mem_erase (hwait ▸ hu)
  have hut : u ≠ t := by
    rintro rfl
    rw [h.tidy.link_of_mem hu'] at hl
    cases hl
  simp only [hcur, htask hne, htask hut] at hs ⊢
  exact hn u hu' hs

/-- A thread that waits behind all entries of `poll`. -/
theorem Inv.queueOn {w : Waitable} (hrun : k.executes) (hidle : k.sched.current ≠ Sched.idle)
    (hw : (∀ n, w ≠ .obj n) ∨ ∃ n, w = .obj n ∧ k.NoneBelow n) : (k.queueOn w).Inv := by
  refine ⟨h.tidy.taskSleep hrun hidle fun m hm hs => ?_, h.idle⟩
  rcases hw with hw | ⟨n, rfl, hbelow⟩
  · obtain ⟨n, rfl⟩ := h.tidy.entry_waitable hm hs
    exact absurd rfl (hw n)
  · exact hbelow m hm hs

section

variable (hidle : k.sched.current ≠ Sched.idle)
include hidle

theorem Inv.mutexLock (hact : k.active) (m : Nat) : (k.mutexLock m).Inv := by
  unfold Waiting.mutexLock
  split
  · split
    · rename_i hs
      rcases hact with hrun | hs'
      · exact (h.queueOn hrun hidle (.inl fun n hn => by cases hn)).setPc hidle _
      · exact absurd hs' hs
    · exact h.setPc hidle _
  · exact Inv.setPc (k := { k with locked := update k.locked m true }) ⟨h.tidy, h.idle⟩ hidle _

theorem Inv.mutexLockIf (hrun : k.executes) (m : Option Nat) : (k.mutexLockIf m).Inv := by
  cases m with
  | none => exact h.setPc hidle _
  | some m => exact h.mutexLock hidle (.inl hrun) m

omit hidle in
theorem Inv.setTimer (timed : Bool) : (k.setTimer timed).Inv := ⟨h.tidy, h.idle⟩

theorem Inv.pollSleep (hrun : k.executes)
    (entries : List Nat) (m : Option Nat) (timed : Bool) : (k.pollSleep entries m timed).Inv := by
  obtain ⟨hinv, hrun', hcur⟩ : (k.mutexUnlockIf m).Inv ∧ (k.mutexUnlockIf m).executes ∧
      (k.mutexUnlockIf m).sched.current = k.sched.current := by
    cases m with
    | none => exact ⟨h, hrun, rfl⟩
    | some m =>
      obtain ⟨hrun', hcur, -⟩ := mutexUnlock_same h hrun m
      exact ⟨h.mutexUnlock m, hrun', hcur⟩
  have hidle' : (k.mutexUnlockIf m).sched.current ≠ Sched.idle := hcur ▸ hidle
  exact ((hinv.queueOn hrun' hidle' (.inl fun n hn => by cases hn)).setTimer timed).setPc hidle' _

theorem Inv.pollTarget (entries : List Nat)
    (index : Nat) (x : Target) : (k.pollTarget entries index x).Inv := by
  cases x with
  | none => exact h.setPc hidle _
  | waitable n prio =>
    have henlist : (k.enlist n prio index).Inv := ⟨h.tidy.enlist n prio _ index, h.idle⟩
    exact henlist.setPc hidle _
  | asserted =>
    have hunlist : (k.unlist entries).Inv := ⟨h.tidy.unlist entries, h.idle⟩
    refine hunlist.setPc ?_ _
    rw [Waiting.unlist, (Sched.unlist_same entries k.sched).1]
    exact hidle

end

theorem Inv.cont (hk : k.cont = some k') : k'.Inv := by
  have hidle : k.pc k.sched.current ≠ .user → k.sched.current ≠ Sched.idle := by
    intro hpc hcur
    rw [hcur] at hpc
    exact hpc h.idle
  unfold Waiting.cont at hk
  split at hk
  · cases hk
  · cases hk
  · rename_i hpc
    obtain ⟨-, rfl⟩ := of_ite_some hk
    exact (h.setTimer false).setPc (hidle (by simp [hpc])) _
  · rename_i m hpc
    obtain ⟨hact, rfl⟩ := of_ite_some hk
    exact h.mutexLock (hidle (by simp [hpc])) hact m
  · rename_i m hpc
    obtain ⟨hrun, rfl⟩ := of_ite_some hk
    exact (h.setTimer false).mutexLock (hidle (by simp [hpc])) (.inl hrun) m
  · rename_i entries m hpc
    obtain ⟨hrun, rfl⟩ := of_ite_some hk
    obtain ⟨hcur, hstate⟩ := Sched.unlist_same entries k.sched
    have hunlist : ((k.setTimer false).unlist entries).Inv := ⟨h.tidy.unlist entries, h.idle⟩
    refine hunlist.mutexLockIf ?_ ?_ m
    · rw [show ((k.setTimer false).unlist entries).sched.current = k.sched.current from hcur]
      exact hidle (by simp [hpc])
    have hsame : (((k.setTimer false).unlist entries).sched.task
        ((k.setTimer false).unlist entries).sched.current).state =
          (k.sched.task k.sched.current).state :=
      (hstate _).trans (congrArg (fun t => (k.sched.task t).state) hcur)
    exact hsame.trans hrun

theorem Inv.timeout (t : Nat) : (k.timeout t).Inv := by
  unfold Waiting.timeout
  dsimp only
  split
  · rename_i hs
    exact ⟨h.tidy.wakeTask hs, h.idle⟩
  · exact ⟨h.tidy, h.idle⟩

theorem Inv.switchTo {t : Nat}
    (ht : (k.sched.task t).state = .ready ∨ t = Sched.idle) : (k.switchTo t).Inv := by
  refine ⟨h.tidy.requeue.switchTo ?_, h.idle⟩
  rcases ht with hs | ht
  · left
    unfold Sched.requeue
    split
    · by_cases htc : t = k.sched.current <;> simp [Sched.readyqueueInsert, htc, hs]
    · exact hs
  · exact .inr ht

/-- One event, where a thread goes to sleep behind the entries of `poll`. -/
theorem Inv.step {e : Event} (hb : k.Behind e) (hk : k.Steps e k') : k'.Inv := by
  have hidle {entries : List Nat} {index : Nat}
      (hpc : k.pc k.sched.current = .enlisting entries index) : k.sched.current ≠ Sched.idle := by
    intro hcur
    rw [hcur, h.idle] at hpc
    cases hpc
  cases e with
  | create prio =>
    cases hk
    exact ⟨h.tidy.threadCreate false prio, h.idle⟩
  | sleep n timed =>
    obtain ⟨hc, rfl⟩ := of_ite_some hk
    have hq := h.queueOn hc.1 hc.2.2 (.inr ⟨n, rfl, hb n rfl⟩)
    exact (hq.setTimer timed).setPc hc.2.2 _
  | condWait c m timed =>
    obtain ⟨hc, rfl⟩ := of_ite_some hk
    obtain ⟨hrun, hcur, hnone⟩ := mutexUnlock_same h hc.1 m
    have hidle : (k.mutexUnlock m).sched.current ≠ Sched.idle := hcur ▸ hc.2.2
    have hq := (h.mutexUnlock m).queueOn hrun hidle (.inr ⟨c, rfl, hnone c (hb c rfl)⟩)
    exact (hq.setTimer timed).setPc hidle _
  | lock m =>
    obtain ⟨hc, rfl⟩ := of_ite_some hk
    exact h.mutexLock hc.2.2 (.inl hc.1) m
  | unlock m =>
    obtain ⟨-, rfl⟩ := of_ite_some hk
    exact h.mutexUnlock m
  | poll =>
    obtain ⟨hc, rfl⟩ := of_ite_some hk
    have hwhich : { k with sched := { k.sched with
        which := update k.sched.which k.sched.current none } }.Inv := ⟨h.tidy.which _, h.idle⟩
    exact hwhich.setPc hc.2.2 _
  | target x =>
    simp only [Steps, Waiting.step] at hk
    split at hk
    · rename_i entries index hpc
      obtain ⟨-, rfl⟩ := of_ite_some hk
      exact h.pollTarget (hidle hpc) entries index x
    · cases hk
  | pollSleep m timed =>
    simp only [Steps, Waiting.step] at hk
    split at hk
    · rename_i entries index hpc
      obtain ⟨hrun, rfl⟩ := of_ite_some hk
      exact h.pollSleep (hidle hpc) hrun entries m timed
    · cases hk
  | wakeup n all =>
    cases hk
    exact ⟨h.tidy.taskWakeup (.obj n) all, h.idle⟩
  | timeout t =>
    obtain ⟨-, rfl⟩ := of_ite_some hk
    exact h.timeout t
  | cont => exact h.cont hk
  | switch t =>
    obtain ⟨hs, rfl⟩ := of_ite_some hk
    exact h.switchTo hs.2

end

theorem inv_of_run {es : List Event} (h : Run (Guarded Behind Steps) init es k) : k.Inv :=
  h.invariant inv_init fun _ _ _ hi hs => hi.step hs.1 hs.2

/-! ## The order of wakeups -/

/-- In every state that is reached while threads go to sleep behind the entries of `poll`: each
wait list has the entries of `poll` first and then the threads, the higher priority before the
lower and among equals the one that waits longer; a wakeup of one takes off the entries, whose
threads are told, and releases the first of the threads, and it alone; and so does the unlock of a
mutex, where there are no entries. -/
theorem wakeups_in_order (es : List Event) (k : Waiting)
    (h : Run (Guarded Behind Steps) init es k) : ∀ w, ∃ ms ts, k.sched.InOrder k.since w ms ts ∧
      (∀ n, w = .obj n → k.sched.Released (k.taskWakeup n false).sched w ms ts) ∧
      (∀ m, w = .mutex m → ms = [] ∧ k.sched.Released (k.mutexUnlock m).sched w ms ts) := by
  have hinv := inv_of_run h
  intro w
  obtain ⟨ms, ts, hin⟩ := hinv.tidy.order w
  refine ⟨ms, ts, hin, fun n hw => ?_, fun m hw => ?_⟩
  · subst hw
    exact hinv.tidy.wakeLoop_one hin (Nat.le_of_eq (congrArg List.length hin.list).symm)
  subst hw
  obtain rfl := hinv.tidy.no_entries (fun n hn => by cases hn) hin
  refine ⟨rfl, ?_⟩
  cases ts with
  | nil =>
    have hempty : k.sched.wait (.mutex m) = [] := hin.list
    have hsame : (k.mutexUnlock m).sched = k.sched := by
      simp only [Waiting.mutexUnlock, hempty]
    rw [hsame]
    exact Sched.released_nil hempty
  | cons t ts =>
    have hlist : k.sched.wait (.mutex m) = t :: ts := hin.list
    have hsame : (k.mutexUnlock m).sched = (k.sched.listRemove t).readyqueueInsert t := by
      simp only [Waiting.mutexUnlock, hlist]
    rw [hsame]
    exact hinv.tidy.unlock_one hin

/-- Thread 1 has priority 5 and sleeps on a waitable, thread 2 polls it, and thread 3 with priority
3 sleeps on it, too. -/
def pollBetween (prio : Nat) : List Event :=
  [.create 5, .create 4, .create 3, .switch 1, .sleep 7 false, .switch 2, .poll,
    .target (.waitable 7 prio), .pollSleep none false, .switch 3, .sleep 7 false, .switch 0]

/-- The entry of the `poll` has a `t_prio` of 31, and thread 3 goes behind thread 1. -/
theorem wakeups_in_order_poll : ∃ k, Run (Guarded Behind Steps) init (pollBetween 31) k ∧
    k.sched.wait (.obj 7) = [4, 1, 3] ∧ ∃ ms ts, k.sched.InOrder k.since (.obj 7) ms ts ∧
      k.sched.Released (k.taskWakeup 7 false).sched (.obj 7) ms ts := by
  obtain ⟨k, hrun, hlist⟩ := exists_guarded_run
    (P := fun k : Waiting => k.sched.wait (.obj 7) = [4, 1, 3])
    (show ∃ k ∈ exec (guardStep Behind step) init (pollBetween 31), _ from by decide +kernel)
  obtain ⟨ms, ts, hin, hwake, -⟩ := wakeups_in_order (pollBetween 31) k hrun (.obj 7)
  exact ⟨k, hrun, hlist, ms, ts, hin, hwake 7 rfl⟩

/-- The entry has a `t_prio` of 0. Thread 3 goes before it, so that a wakeup of one releases
thread 3 while thread 1 waits on, and does not reach the thread that polls. -/
theorem lower_priority_woken : ∃ k, Run Steps init (pollBetween 0) k ∧
    k.sched.wait (.obj 7) = [3, 4, 1] ∧ (k.sched.task 1).prio = 5 ∧ (k.sched.task 3).prio = 3 ∧
    (k.sched.task 1).state = .sleeping ∧ (k.sched.task 3).state = .sleeping ∧
    ((k.taskWakeup 7 false).sched.task 3).state = .ready ∧
    ((k.taskWakeup 7 false).sched.task 1).state = .sleeping ∧
    (k.taskWakeup 7 false).sched.which 2 = none :=
  exists_run (show ∃ k ∈ exec step init (pollBetween 0), _ from by decide +kernel)

end Waiting

end Mios.Kernel
