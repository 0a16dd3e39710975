import Mios.Kernel.MutexOps

/-! Mutual exclusion, and that no waiter is lost: what holds in every state that threads, timers
and wakeups can reach. -/

namespace Mios.Kernel

open Function Lib Lib.BsdList Lib.Place Option

namespace Threads

variable {q : Waitable → List Nat} {w : Threads}

variable {fuel m : Nat} {w' : Threads}

/-! ## Who holds a mutex -/

/-- By this step a function that locks `m` returns to the current thread with the mutex:
`mutex_lock`, the lock at the end of `cond_wait`, or a `mutex_trylock` that returns 0. -/
inductive Locks (w : Threads) (m : Nat) (w' : Threads) : Event → Prop
  | lock {fails : Bool} (hpc : w'.pc w.current = .user) : Locks w m w' (.lock m fails)
  | lockSlow (hpc : w.pc w.current = .lockSlow m ∨ w.pc w.current = .lockWait m ∨
      ∃ c, w.pc w.current = .condWait c m) (hpc' : w'.pc w.current = .user) : Locks w m w' .slow
  | trylock {fails : Bool} (hpc : w'.pc w.current = .user) (h0 : w'.tried w.current = 0) :
      Locks w m w' (.trylock m fails)
  | trySlow (hpc : w.pc w.current = .trySlow m) (h0 : w'.tried w.current = 0) : Locks w m w' .slow

/-- By this step the current thread gives `m` up: `mutex_unlock` returns, or `cond_wait` sleeps. -/
inductive Unlocks (w : Threads) (m : Nat) (w' : Threads) : Event → Prop
  | unlock {fails : Bool} (hpc : w'.pc w.current = .user) : Unlocks w m w' (.unlock m fails)
  | unlockSlow (hpc : w.pc w.current = .unlockSlow m) : Unlocks w m w' .slow
  | condWait {c : Nat} {timed : Bool} : Unlocks w m w' (.condWait c m timed)

/-- A thread holds a mutex from the step that locked it up to the step that gives it up. -/
def Between (w : Threads) (e : Event) (w' : Threads) : Prop :=
  ∀ m t, w'.holds m t = true ↔ t = w.current ∧ Locks w m w' e ∨
    w.holds m t = true ∧ ¬(t = w.current ∧ Unlocks w m w' e)

variable {e : Event}

theorem Between.same (hh : w'.holds = w.holds) (hl : ∀ m, ¬Locks w m w' e)
    (hu : ∀ m, ¬Unlocks w m w' e) : Between w e w' := by
  intro m t
  simp [hh, hl m, hu m]

theorem Between.locks (hh : w'.holds = (w.setHolds m w.current true).holds)
    (hl : ∀ m', Locks w m' w' e ↔ m' = m) (hu : ∀ m', ¬Unlocks w m' w' e) : Between w e w' := by
  intro m' t
  rw [hh, hl]
  by_cases hm : m' = m <;> by_cases ht : t = w.current <;> simp [setHolds, hm, ht, hu]

theorem Between.unlocks (hh : w'.holds = (w.setHolds m w.current false).holds)
    (hl : ∀ m', ¬Locks w m' w' e) (hu : ∀ m', Unlocks w m' w' e ↔ m' = m) : Between w e w' := by
  intro m' t
  rw [hh, hu]
  by_cases hm : m' = m <;> by_cases ht : t = w.current <;> simp [setHolds, hm, ht, hl]

@[simp] theorem mutexUnlockSchedLocked_holds (m : Nat) :
    (w.mutexUnlockSchedLocked m).holds = (w.setHolds m w.current false).holds := by
  unfold mutexUnlockSchedLocked
  dsimp only
  split <;> rfl

theorem sleepAt_holds {n : Nat} {pc : Pc} {timed : Bool} (hw : w.sleepAt fuel n pc timed = some w') :
    w'.holds = w.holds := by
  simp only [sleepAt, taskSleep, taskInsertWaitList, map_map, map_eq_some_iff] at hw
  obtain ⟨L', -, rfl⟩ := hw
  rfl

/-- The loop of `mutex_lock_sched_locked` ends with the mutex, or goes on. -/
theorem mutexLockSchedLocked_holds (hw : w.mutexLockSchedLocked fuel m = some w') :
    w.lock m % 2 = 0 ∧ w'.pc w.current = .user ∧ w'.holds = (w.setHolds m w.current true).holds ∨
      w'.pc w.current = .lockWait m ∧ w'.holds = w.holds := by
  unfold mutexLockSchedLocked at hw
  split at hw
  · right
    split at hw
    · simp only [taskInsertWaitList, map_map, map_eq_some_iff] at hw
      obtain ⟨L', -, rfl⟩ := hw
      exact ⟨update_self .., rfl⟩
    · cases hw
      exact ⟨update_self .., rfl⟩
  · left
    cases hw
    exact ⟨by omega, update_self .., rfl⟩

theorem taskWakeup_holds {n : Nat} {all : Bool} (hw : taskWakeup fuel w n all = some w') :
    w'.holds = w.holds := by
  induction fuel generalizing w with
  | zero => cases hw
  | succ fuel ih =>
    unfold taskWakeup at hw
    split at hw
    · cases hw
      rfl
    · split at hw
      · have hrest := ih hw
        exact hrest
      · cases hw
        rfl

/-- One round of the loop that locks, wherever the thread comes from. -/
theorem between_lock (hpc : w.pc w.current = .lockSlow m ∨ w.pc w.current = .lockWait m ∨
      ∃ c, w.pc w.current = .condWait c m) {v : Threads} (hv : v.current = w.current)
    (hh : v.holds = w.holds) (hw : v.mutexLockSchedLocked fuel m = some w') :
    Between w .slow w' := by
  have hsame : ∀ m', (w.pc w.current = .lockSlow m' ∨ w.pc w.current = .lockWait m' ∨
      ∃ c, w.pc w.current = .condWait c m') ↔ m' = m := by
    intro m'
    rcases hpc with hpc | hpc | ⟨c, hpc⟩ <;> simp [hpc, eq_comm]
  have hrest : ∀ m', w.pc w.current ≠ .trySlow m' ∧ w.pc w.current ≠ .unlockSlow m' := by
    intro m'
    rcases hpc with hpc | hpc | ⟨c, hpc⟩ <;> simp [hpc]
  have hu : ∀ m', ¬Unlocks w m' w' .slow := by
    rintro m' ⟨⟩
    exact (hrest m').2 ‹_›
  have hl : ∀ m', Locks w m' w' .slow ↔ m' = m ∧ w'.pc w.current = .user := by
    intro m'
    refine ⟨fun h => ?_, fun h => .lockSlow ((hsame m').mpr h.1) h.2⟩
    cases h with
    | lockSlow hpc hpc' => exact ⟨(hsame m').mp hpc, hpc'⟩
    | trySlow hpc h0 => exact absurd hpc (hrest m').1
  rcases mutexLockSchedLocked_holds hw with ⟨-, huser, hholds⟩ | ⟨hwait, hholds⟩
  · rw [hv] at huser
    refine .locks (m := m) ?_ (fun m' => (hl m').trans (and_iff_left huser)) hu
    simpa only [setHolds, hv, hh] using hholds
  · rw [hv] at hwait
    refine .same (hholds.trans hh) (fun m' hlocks => ?_) hu
    rw [((hl m').mp hlocks).2] at hwait
    cases hwait

theorem mutexTrylockSlow_tried (m : Nat) :
    (w.mutexTrylockSlow m).tried w.current = w.lock m % 2 := by
  unfold mutexTrylockSlow
  dsimp only
  split <;> exact update_self ..

theorem between_trylock (hpc : w.pc w.current = .trySlow m) :
    Between w .slow (w.mutexTrylockSlow m) := by
  have hu : ∀ m' w', ¬Unlocks w m' w' .slow := by
    rintro m' w' ⟨⟩
    simp_all
  have hl : ∀ m' w', Locks w m' w' .slow ↔ m' = m ∧ w'.tried w.current = 0 := by
    intro m' w'
    refine ⟨fun h => ?_, fun h => .trySlow (h.1 ▸ hpc) h.2⟩
    cases h with
    | lockSlow hpc' => simp [hpc] at hpc'
    | trySlow hpc' h0 => exact ⟨by simpa [hpc, eq_comm] using hpc', h0⟩
  have htried := mutexTrylockSlow_tried (w := w) m
  by_cases hfree : w.lock m % 2 = 0
  · refine .locks (m := m) ?_ (fun m' => ?_) fun m' => hu m' _
    · simp [mutexTrylockSlow, hfree]
      rfl
    · rw [hl, htried, and_iff_left hfree]
  · refine .same ?_ (fun m' => ?_) fun m' => hu m' _
    · have hodd : w.lock m % 2 = 1 := by omega
      simp [mutexTrylockSlow, hodd]
      rfl
    · rw [hl, htried]
      exact fun h => hfree h.2

theorem between_slow (hw : w.slow fuel = some w') : Between w .slow w' := by
  cases hpc : w.pc w.current with
  | user => simp [slow, hpc] at hw
  | lockSlow m =>
    simp only [slow, hpc] at hw
    exact between_lock (.inl hpc) rfl rfl hw
  | lockWait m =>
    simp only [slow, hpc] at hw
    exact between_lock (.inr (.inl hpc)) rfl rfl hw
  | trySlow m =>
    simp only [slow, hpc, Option.some.injEq] at hw
    subst hw
    exact between_trylock hpc
  | unlockSlow m =>
    simp only [slow, hpc, Option.some.injEq] at hw
    subst hw
    refine .unlocks (m := m) (mutexUnlockSchedLocked_holds m) ?_ fun m' => ?_
    · rintro m' ⟨⟩ <;> simp_all
    · refine ⟨?_, fun h => .unlockSlow (h ▸ hpc)⟩
      rintro ⟨⟩
      simp_all
  | condWait c m =>
    simp only [slow, hpc] at hw
    split at hw
    · cases hw
    · exact between_lock (v := { w with timed := update w.timed w.current false })
        (.inr (.inr ⟨c, hpc⟩)) rfl rfl hw
  | asleep n =>
    simp only [slow, hpc] at hw
    split at hw
    · cases hw
    · cases hw
      refine .same rfl ?_ ?_ <;> rintro m' ⟨⟩ <;> simp_all

theorem step_between (hw : w.step fuel e = some w') : Between w e w' := by
  cases e with
  | lock m fails =>
    obtain ⟨hc, hw⟩ := ite_none_right_eq_some.mp hw
    split at hw
    · cases hw
      refine .locks (m := m) rfl (fun m' => ⟨?_, ?_⟩) (by rintro m' ⟨⟩)
      · rintro ⟨⟩
        rfl
      · rintro rfl
        exact .lock hc.2
    · cases hw
      refine .same rfl ?_ (by rintro m' ⟨⟩)
      rintro m' ⟨hpc⟩
      simp [setPc] at hpc
  | trylock m fails =>
    obtain ⟨hc, hw⟩ := ite_none_right_eq_some.mp hw
    split at hw
    · cases hw
      refine .locks (m := m) rfl (fun m' => ⟨?_, ?_⟩) (by rintro m' ⟨⟩)
      · rintro ⟨⟩
        rfl
      · rintro rfl
        exact .trylock hc.2 (update_self ..)
    · cases hw
      refine .same rfl ?_ (by rintro m' ⟨⟩)
      rintro m' ⟨⟩
      simp_all [setPc]
  | unlock m fails =>
    obtain ⟨hc, hw⟩ := ite_none_right_eq_some.mp hw
    split at hw
    · cases hw
      refine .unlocks (m := m) rfl (by rintro m' ⟨⟩) (fun m' => ⟨?_, ?_⟩)
      · rintro ⟨⟩
        rfl
      · rintro rfl
        exact .unlock hc.1.2
    · cases hw
      refine .same rfl (by rintro m' ⟨⟩) ?_
      rintro m' ⟨hpc⟩
      simp [setPc] at hpc
  | condWait c m timed =>
    obtain ⟨-, hw⟩ := ite_none_right_eq_some.mp hw
    refine .unlocks (m := m) ((sleepAt_holds hw).trans (mutexUnlockSchedLocked_holds m))
      (by rintro m' ⟨⟩) (fun m' => ⟨?_, ?_⟩)
    · rintro ⟨⟩
      rfl
    · rintro rfl
      exact .condWait
  | slow => exact between_slow hw
  | sleep n timed =>
    obtain ⟨-, hw⟩ := ite_none_right_eq_some.mp hw
    exact .same (sleepAt_holds hw) (by rintro m' ⟨⟩) (by rintro m' ⟨⟩)
  | wakeup n all => exact .same (taskWakeup_holds hw) (by rintro m' ⟨⟩) (by rintro m' ⟨⟩)
  | timeout t =>
    obtain ⟨-, rfl⟩ := of_ite_some hw
    refine .same ?_ (by rintro m' ⟨⟩) (by rintro m' ⟨⟩)
    dsimp only
    split <;> rfl
  | switch t =>
    obtain ⟨-, rfl⟩ := of_ite_some hw
    refine .same ?_ (by rintro m' ⟨⟩) (by rintro m' ⟨⟩)
    dsimp only
    split <;> rfl

/-- What was locked had been free. -/
theorem Locks.free (hl : Locks w m w' e) (hw : w.step fuel e = some w') : w.lock m % 2 = 0 := by
  cases hl with
  | lock hpc | trylock hpc =>
    obtain ⟨-, hw⟩ := ite_none_right_eq_some.mp hw
    split at hw
    · rename_i hcas
      rw [hcas.1]
    · cases hw
      simp [setPc] at hpc
  | lockSlow hpc hpc' =>
    have hlock : ∀ v : Threads, v.current = w.current → v.mutexLockSchedLocked fuel m = some w' →
        v.lock m % 2 = 0 := by
      intro v hv hlocked
      rcases mutexLockSchedLocked_holds hlocked with ⟨hfree, -⟩ | ⟨hwait, -⟩
      · exact hfree
      · rw [hv, hpc'] at hwait
        cases hwait
    simp only [step, slow] at hw
    rcases hpc with hpc | hpc | ⟨c, hpc⟩
    · exact hlock w rfl (by simpa only [hpc] using hw)
    · exact hlock w rfl (by simpa only [hpc] using hw)
    · simp only [hpc] at hw
      split at hw
      · cases hw
      · exact hlock { w with timed := update w.timed w.current false } rfl hw
  | trySlow hpc h0 =>
    simp only [step, slow, hpc, Option.some.injEq] at hw
    rw [← hw, mutexTrylockSlow_tried] at h0
    exact h0

/-! ## One step -/

/-- What a step leads to: the lists it leaves, and who was handed a mutex. -/
def Next (w : Threads) (q : Waitable → List Nat) (w' : Threads) : Prop :=
  ∃ q', w'.Inv q' ∧ HandsOver w q w' q'

section

variable (h : w.Inv q)
include h

theorem Inv.condWait_next (hc : w.calls) {c : Nat} {timed : Bool}
    (hh : w.holds m w.current = true) (hw : w.condWait fuel c m timed = some w') : Next w q w' := by
  obtain ⟨q₁, hinv, hcalls, hover⟩ := h.unlock_handsOver hc hh
  obtain ⟨hlock, hinv', hstate, hpc⟩ := hinv.sleepAt hcalls rfl hw
  refine ⟨_, hinv', hover.before hlock (fun m' => update_of_ne (by simp) _ _) ?_⟩
  intro u m' hu
  have hne : u ≠ (w.mutexUnlockSchedLocked m).current := by
    intro heq
    rw [heq, hcalls.2] at hu
    cases hu
  rw [hpc, hstate, update_of_ne hne, update_of_ne hne]
  exact ⟨hu, rfl⟩

omit h in
theorem mutexUnlockSchedLocked_setPc (m : Nat) (pc : Pc) :
    (w.mutexUnlockSchedLocked m).setPc w.current pc =
      (w.setPc w.current pc).mutexUnlockSchedLocked m := by
  have hlock : ((w.setPc w.current pc).clearLock m).lock m = (w.clearLock m).lock m := rfl
  unfold mutexUnlockSchedLocked
  dsimp only
  rw [hlock]
  split <;> rfl

/-- A thread that is awake goes on in a function that is no lock of a mutex. -/
theorem Inv.awake (hpc : waitsOn (w.pc w.current) = none) :
    w.state w.current = .running ∧ w.timed w.current = false := by
  refine ⟨h.current.resolve_right fun hs => h.asleep _ hs hpc, h.not_timed fun n hn => ?_⟩
  rw [hpc] at hn
  cases hn

theorem Inv.unlockSlow_next (hpc : w.pc w.current = .unlockSlow m) :
    Next w q ((w.mutexUnlockSchedLocked m).setPc w.current .user) := by
  obtain ⟨hrun, hoff⟩ := h.awake (by rw [hpc]; rfl)
  have hu : (w.setPc w.current .user).Inv q := h.setPc hrun (by simp [hpc]) hoff (by simp)
  have hcalls : (w.setPc w.current .user).calls := ⟨hrun, update_self ..⟩
  obtain ⟨q', hinv, -, hover⟩ := hu.unlock_handsOver hcalls (h.unlocking _ m hpc)
  rw [mutexUnlockSchedLocked_setPc]
  refine ⟨q', hinv, hover.after (fun _ => rfl) ?_⟩
  intro u m' hum
  have hne : u ≠ w.current := fun heq => by simp [heq, hpc] at hum
  exact ⟨by simpa [Threads.setPc, hne] using hum, rfl⟩

theorem Inv.setTried (t r : Nat) : (w.setTried t r).Inv q := { h with }

theorem Inv.mutexTrylockSlow_next (hpc : w.pc w.current = .trySlow m) :
    Next w q (w.mutexTrylockSlow m) := by
  obtain ⟨hrun, hoff⟩ := h.awake (by rw [hpc]; rfl)
  have htried := h.setTried w.current (w.lock m % 2)
  have hnot : ∀ m', w.pc w.current ≠ .lockWait m' := by simp [hpc]
  unfold mutexTrylockSlow
  dsimp only
  split
  · exact ⟨q, htried.setPc hrun hnot hoff (by simp), Keeps.handsOver fun _ hm => hm⟩
  · rename_i hfree
    have hfree : w.lock m % 2 = 0 := by omega
    exact ⟨q, htried.acquire hrun hfree (noBit_withBit _) (withBit_mod _)
      (fun m' hm' => absurd hm' (hnot m')) hoff, Keeps.handsOver (keeps_acquire hfree _)⟩

theorem Inv.slow_next (hw : w.slow fuel = some w') : Next w q w' := by
  have hlocks : ∀ {m : Nat}, (∀ m', w.pc w.current = .lockWait m' → m' = m) →
      (w.state w.current = .sleeping → w.pc w.current = .lockWait m) →
      w.timed w.current = false → w.mutexLockSchedLocked fuel m = some w' → Next w q w' := by
    intro m hold hsl hoff hw
    obtain ⟨q', hinv, hkeeps⟩ := h.mutexLockSchedLocked hold hsl hoff hw
    exact ⟨q', hinv, hkeeps.handsOver⟩
  cases hpc : w.pc w.current with
  | user => simp [slow, hpc] at hw
  | lockSlow m =>
    simp only [slow, hpc] at hw
    obtain ⟨hrun, hoff⟩ := h.awake (by rw [hpc]; rfl)
    exact hlocks (by simp [hpc]) (by simp [hrun]) hoff hw
  | lockWait m =>
    simp only [slow, hpc] at hw
    have hoff := h.not_timed (t := w.current) (by simp [hpc, waitsOn])
    exact hlocks (by simp [hpc]) (fun _ => hpc) hoff hw
  | trySlow m =>
    simp only [slow, hpc, Option.some.injEq] at hw
    subst hw
    exact h.mutexTrylockSlow_next hpc
  | unlockSlow m =>
    simp only [slow, hpc, Option.some.injEq] at hw
    subst hw
    exact h.unlockSlow_next hpc
  | condWait c m =>
    simp only [slow, hpc] at hw
    split at hw
    · cases hw
    · rename_i hs
      obtain ⟨q', hinv, hkeeps⟩ := (h.disarm w.current).mutexLockSchedLocked (by simp [hpc])
        (fun hs' => absurd hs' hs) (by simp) hw
      exact ⟨q', hinv, Keeps.handsOver hkeeps⟩
  | asleep n =>
    simp only [slow, hpc] at hw
    split at hw
    · cases hw
    rename_i hs
    cases hw
    refine ⟨q, (h.disarm w.current).setPc (h.current.resolve_right hs) (by simp [hpc]) (by simp)
      (by simp), Keeps.handsOver fun _ hm => hm⟩

theorem Inv.timeout_next {t : Nat} (ht : w.timed t = true) :
    Next w q (let w := { w with timed := update w.timed t false }
      if w.state t = .sleeping then w.wake t else w) := by
  obtain ⟨n, hn⟩ := h.timed t ht
  have hoff := h.disarm t
  dsimp only
  split
  · rename_i hs
    obtain ⟨hinv, hlock⟩ := hoff.wake ((h.mem_iff t (.obj n)).mpr ⟨hs, hn⟩)
    exact ⟨_, hinv, Keeps.handsOver (Keeps.of_eq hlock)⟩
  · exact ⟨q, hoff, Keeps.handsOver fun _ hm => hm⟩

theorem Inv.switch_next {t : Nat} (ht : w.state t = .ready) (h0 : 0 < t) (heven : t % 2 = 0)
    {state : Nat → TaskState} (hstate : state =
      if w.state w.current = .running then update w.state w.current .ready else w.state) :
    Next w q { w with state := update state t .running, current := t } := by
  have hrest : ∀ u, (state u = .sleeping ↔ w.state u = .sleeping) ∧ state u ≠ .running := by
    intro u
    rw [hstate]
    split
    · rename_i hrun
      by_cases huc : u = w.current
      · simp [huc, hrun]
      · rw [update_of_ne huc]
        exact ⟨Iff.rfl, fun hu => huc (h.running u hu)⟩
    · rename_i hns
      exact ⟨Iff.rfl, fun hu => hns (h.running u hu ▸ hu)⟩
  have hsleep : ∀ u, update state t .running u = .sleeping ↔ w.state u = .sleeping := by
    intro u
    by_cases hu : u = t
    · subst hu
      simp [ht]
    · rw [update_of_ne hu]
      exact (hrest u).1
  have hloc : { w with state := update state t .running, current := t }.sleepsOn = w.sleepsOn := by
    funext u
    simp [sleepsOn, hsleep]
  have hself : update state t .running t = .running := update_self ..
  refine ⟨q, { h with
    placed := hloc ▸ h.placed, addr := ⟨h0, heven⟩, current := .inl hself
    running := fun u hu => ?_, asleep := fun u hu => h.asleep u ((hsleep u).mp hu)
    spins := fun m _ hs => absurd (hself.symm.trans hs) (by simp)
    contender := fun m hm hq => ?_ }, Keeps.handsOver fun _ hm => hm⟩
  · by_contra hne
    exact (hrest u).2 ((update_of_ne hne _ _).symm.trans hu)
  · obtain ⟨u, hu, hs⟩ := h.contender m hm hq
    exact ⟨u, hu, fun hs' => hs ((hsleep u).mp hs')⟩

theorem Inv.fastLock_next (hc : w.calls) {fails : Bool} (hcas : w.cas m 0 fails) :
    Next w q ((w.setLock m 1).setHolds m w.current true) := by
  obtain ⟨hrun, hoff⟩ := h.awake (by rw [hc.2]; rfl)
  have hfree : w.lock m % 2 = 0 := by rw [hcas.1]
  have hinv := h.acquire hrun (v := 1) hfree (by rw [hcas.1]; rfl) rfl (by simp [hc.2]) hoff
  have heq : (w.setLock m 1).setPc w.current .user = w.setLock m 1 := setPc_user hc
  rw [heq] at hinv
  exact ⟨q, hinv, Keeps.handsOver (keeps_acquire hfree _)⟩

/-- The fast path of a lock failed. -/
theorem Inv.goSlow_next (hc : w.calls) {pc : Pc} (hpc : ∀ m', pc ≠ .unlockSlow m') :
    Next w q (w.setPc w.current pc) := by
  obtain ⟨hrun, hoff⟩ := h.awake (by rw [hc.2]; rfl)
  exact ⟨q, h.setPc hrun (by simp [hc.2]) hoff (fun m' heq => absurd heq (hpc m')),
    Keeps.handsOver fun _ hm => hm⟩

theorem Inv.step_next (hw : w.step fuel e = some w') : Next w q w' := by
  cases e with
  | lock m fails =>
    obtain ⟨hc, hw⟩ := ite_none_right_eq_some.mp hw
    split at hw
    · cases hw
      exact h.fastLock_next hc ‹_›
    · cases hw
      exact h.goSlow_next hc (by simp)
  | trylock m fails =>
    obtain ⟨hc, hw⟩ := ite_none_right_eq_some.mp hw
    split at hw
    · cases hw
      exact (h.setTried w.current 0).fastLock_next hc ‹w.cas m 0 fails›
    · cases hw
      exact h.goSlow_next hc (by simp)
  | unlock m fails =>
    obtain ⟨⟨hc, hh⟩, hw⟩ := ite_none_right_eq_some.mp hw
    obtain ⟨hrun, hoff⟩ := h.awake (by rw [hc.2]; rfl)
    split at hw
    · rename_i hcas
      cases hw
      refine ⟨q, h.unlock_fast hh hc hcas.1, ?_⟩
      intro m' hm hm' t rest hq
      by_cases hmm : m' = m
      · rw [hmm, h.queue_nil (by rw [hcas.1]; rfl)] at hq
        cases hq
      · have hsame : ((w.setLock m 0).setHolds m w.current false).lock m' = w.lock m' :=
          lock_setLock_of_ne hmm _
        rw [hsame] at hm'
        omega
    · cases hw
      refine ⟨q, h.setPc hrun (by simp [hc.2]) hoff ?_, Keeps.handsOver fun _ hm => hm⟩
      intro m' heq
      cases heq
      exact hh
  | condWait c m timed =>
    obtain ⟨⟨hc, hh⟩, hw⟩ := ite_none_right_eq_some.mp hw
    exact h.condWait_next hc hh hw
  | slow => exact h.slow_next hw
  | sleep n timed =>
    obtain ⟨hc, hw⟩ := ite_none_right_eq_some.mp hw
    obtain ⟨hlock, hinv, -⟩ := h.sleepAt hc rfl hw
    exact ⟨_, hinv, Keeps.handsOver (Keeps.of_eq hlock)⟩
  | wakeup n all =>
    obtain ⟨q', hinv, hlock⟩ := h.taskWakeup fuel n all hw
    exact ⟨q', hinv, Keeps.handsOver (Keeps.of_eq hlock)⟩
  | timeout t =>
    obtain ⟨ht, rfl⟩ := of_ite_some hw
    exact h.timeout_next ht
  | switch t =>
    obtain ⟨⟨ht, h0, heven⟩, rfl⟩ := of_ite_some hw
    have hnext := h.switch_next ht h0 heven rfl
    dsimp only
    split at hnext
    · rw [if_pos ‹_›]
      exact hnext
    · rw [if_neg ‹_›]
      exact hnext

/-! ## The functions return -/

theorem Inv.insert_returns (hrun : w.state w.current = .running) (wt : Waitable)
    {L : Links Waitable} (hlists : Lists L q) (hplain : pointer wt (L.first wt) = L.first wt) :
    ∃ L', L.insertSorted (fun a b => w.prio b < w.prio a) (q wt).length wt w.current = some L' := by
  have hnone : w.sleepsOn w.current = none := by simp [sleepsOn, hrun]
  have hseg := hlists.seg wt
  rw [hplain] at hseg
  exact (Links.insertSorted_spec _ hseg (h.placed.nodup wt) (h.placed.notMem hnone wt)
    (Nat.ne_of_gt h.addr.1) _).2 le_rfl

theorem Inv.sleepAt_returns (hc : w.calls) (n : Nat) (pc : Pc) (timed : Bool) :
    ∃ fuel w', w.sleepAt fuel n pc timed = some w' := by
  obtain ⟨L', hL⟩ := h.insert_returns hc.1 (.obj n) h.lists rfl
  refine ⟨(q (.obj n)).length, ?_⟩
  simp only [Threads.sleepAt, taskSleep, taskInsertWaitList, map_map, map_eq_some_iff]
  exact ⟨_, L', hL, rfl⟩

theorem Inv.lock_returns (m : Nat) : ∃ fuel w', w.mutexLockSchedLocked fuel m = some w' := by
  unfold Threads.mutexLockSchedLocked
  split
  · split
    · rename_i hns
      have hrun := h.current.resolve_right hns
      have hlists : Lists (w.clearLock m).links q := h.lists.setLock (noBit_noBit _)
      obtain ⟨L', hL⟩ := h.insert_returns hrun _ hlists (plain_clearLock m)
      refine ⟨(q (.mutex m)).length, ?_⟩
      simp only [taskInsertWaitList, map_map, map_eq_some_iff]
      exact ⟨_, L', hL, rfl⟩
    · exact ⟨0, _, rfl⟩
  · exact ⟨0, _, rfl⟩

omit h in
/-- Every round takes a thread off the list. -/
theorem Inv.wakeup_returns {n : Nat} (all : Bool) (k : Nat) (h : w.Inv q)
    (hk : (q (.obj n)).length ≤ k) : ∃ w', Threads.taskWakeup (k + 1) w n all = some w' := by
  induction k generalizing w q with
  | zero =>
    have hnil : q (.obj n) = [] := List.length_eq_zero_iff.mp (Nat.le_zero.mp hk)
    have hfirst : w.links.first (.obj n) = 0 := by
      by_contra hne
      have hmem := h.first_mem hne
      rw [hnil] at hmem
      cases hmem
    exact ⟨w, by rw [Threads.taskWakeup, if_pos hfirst]⟩
  | succ k ih =>
    rw [Threads.taskWakeup]
    split
    · exact ⟨_, rfl⟩
    rename_i hne
    have hmem := h.first_mem hne
    obtain ⟨hwake, -⟩ := h.wake hmem
    split
    · refine ih hwake ?_
      rw [update_self, List.length_erase_of_mem hmem]
      omega
    · exact ⟨_, rfl⟩

/-- The event can happen. -/
def Enabled (w : Threads) : Event → Prop
  | .lock _ _ | .trylock _ _ | .sleep _ _ => w.calls
  | .unlock m _ | .condWait _ m _ => w.calls ∧ w.holds m w.current = true
  | .slow => w.pc w.current ≠ .user ∧
      (w.state w.current = .sleeping → ∃ m, w.pc w.current = .lockWait m)
  | .wakeup _ _ => True
  | .timeout t => w.timed t = true
  | .switch t => w.state t = .ready ∧ 0 < t ∧ t % 2 = 0

theorem Inv.slow_returns (he : w.Enabled .slow) : ∃ fuel w', w.slow fuel = some w' := by
  obtain ⟨hne, hsl⟩ := he
  cases hpc : w.pc w.current with
  | user => exact absurd hpc hne
  | lockSlow m | lockWait m => simpa only [slow, hpc] using h.lock_returns m
  | trySlow m | unlockSlow m =>
    simp only [slow, hpc]
    exact ⟨0, _, rfl⟩
  | condWait c m =>
    have hs : w.state w.current ≠ .sleeping := by
      intro hs
      obtain ⟨m', hm'⟩ := hsl hs
      rw [hpc] at hm'
      cases hm'
    simpa only [slow, hpc, if_neg hs] using (h.disarm w.current).lock_returns m
  | asleep n =>
    have hs : w.state w.current ≠ .sleeping := by
      intro hs
      obtain ⟨m', hm'⟩ := hsl hs
      rw [hpc] at hm'
      cases hm'
    simp only [slow, hpc, if_neg hs]
    exact ⟨0, _, rfl⟩

omit h in
theorem exists_ite {α : Type} {p : Prop} [Decidable p] (a b : α) :
    ∃ x, (if p then some a else some b) = some x := by
  split <;> exact ⟨_, rfl⟩

theorem Inv.returns (he : w.Enabled e) : ∃ w', Steps w e w' := by
  cases e with
  | lock m fails | trylock m fails =>
    obtain ⟨w', hw⟩ := exists_ite (p := w.cas m 0 fails) _ _
    exact ⟨w', 0, (if_pos he).trans hw⟩
  | unlock m fails =>
    obtain ⟨w', hw⟩ := exists_ite (p := w.cas m 1 fails) _ _
    exact ⟨w', 0, (if_pos he).trans hw⟩
  | condWait c m timed =>
    obtain ⟨q', hinv, hcalls, -⟩ := h.unlock_handsOver he.1 he.2
    obtain ⟨fuel, w', hw⟩ := hinv.sleepAt_returns hcalls c (.condWait c m) timed
    exact ⟨w', fuel, (if_pos he).trans hw⟩
  | slow =>
    obtain ⟨fuel, w', hw⟩ := h.slow_returns he
    exact ⟨w', fuel, hw⟩
  | sleep n timed =>
    obtain ⟨fuel, w', hw⟩ := h.sleepAt_returns he n (.asleep n) timed
    exact ⟨w', fuel, (if_pos he).trans hw⟩
  | wakeup n all =>
    obtain ⟨w', hw⟩ := h.wakeup_returns all _ le_rfl
    exact ⟨w', (q (.obj n)).length + 1, hw⟩
  | timeout t | switch t => exact ⟨_, 0, if_pos he⟩

/-! ## Every run -/

omit h in
theorem inv_of_run {prio : Nat → Nat} {c : Nat} (h0 : 0 < c) (hc : c % 2 = 0) {es : List Event}
    (hrun : Run Steps (init prio c) es w) : ∃ q, w.Inv q := by
  refine hrun.invariant (I := fun w => ∃ q, w.Inv q) ⟨_, inv_init prio h0 hc⟩ ?_
  intro u e v hinv hstep
  obtain ⟨q, hinv⟩ := hinv
  obtain ⟨fuel, hstep⟩ := hstep
  obtain ⟨q', hinv', -⟩ := hinv.step_next hstep
  exact ⟨q', hinv'⟩

/-- The word of the mutex, without the lock bit, leads to these threads. -/
def Waiters (w : Threads) (m : Nat) (xs : List Nat) : Prop :=
  w.links.Seg (.head (.mutex m)) (noBit (w.lock m)) xs

/-- A mutex that was locked is free after a step, and `t` was the first of its waiters. -/
structure HandedTo (w w' : Threads) (m t : Nat) (rest : List Nat) : Prop where
  waiters : w'.Waiters m rest
  contends : w'.pc t = .lockWait m
  ready : w'.state t = .ready
  others : ∀ u, u ≠ t → w.pc u = .lockWait m → w'.pc u = .lockWait m ∧ w'.state u = w.state u

structure Sound (w : Threads) : Prop where
  exclusive : ∀ m t u, w.holds m t = true → w.holds m u = true → t = u
  locked : ∀ m, w.lock m % 2 = 1 ↔ ∃ t, w.holds m t = true
  between : ∀ e w', Steps w e w' → Between w e w'
  acquired : ∀ e w', Steps w e w' → ∀ m, Locks w m w' e → w.lock m % 2 = 0 ∧ w'.lock m % 2 = 1
  refused : ∀ w', Steps w .slow w' → ∀ m, w.pc w.current = .trySlow m →
    w'.tried w.current ≠ 0 → w.lock m % 2 = 1
  released : ∀ e w', Steps w e w' → ∀ m, Unlocks w m w' e → w.lock m % 2 = 1 ∧ w'.lock m % 2 = 0
  waiters : ∀ m, ∃ xs, w.Waiters m xs ∧ xs.Nodup ∧
    ∀ t, t ∈ xs ↔ w.pc t = .lockWait m ∧ w.state t = .sleeping
  contender : ∀ m t rest, w.lock m % 2 = 0 → w.Waiters m (t :: rest) →
    ∃ u, w.pc u = .lockWait m ∧ w.state u ≠ .sleeping
  handedOver : ∀ e w', Steps w e w' → ∀ m, w.lock m % 2 = 1 → w'.lock m % 2 = 0 →
    ∀ t rest, w.Waiters m (t :: rest) → HandedTo w w' m t rest
  returns : ∀ e, w.Enabled e → ∃ w', Steps w e w'

theorem Inv.waiters_iff {xs : List Nat} : w.Waiters m xs ↔ xs = q (.mutex m) := by
  refine ⟨fun hw => hw.unique (h.lists.seg (.mutex m)), fun heq => ?_⟩
  rw [heq]
  exact h.lists.seg (.mutex m)

omit h in
theorem waitsOn_mutex_iff {pc : Pc} : waitsOn pc = some (.mutex m) ↔ pc = .lockWait m := by
  refine ⟨waitsOn_mutex, fun heq => ?_⟩
  rw [heq]
  rfl

theorem Inv.acquired (hstep : w.Steps e w') (hl : Locks w m w' e) :
    w.lock m % 2 = 0 ∧ w'.lock m % 2 = 1 := by
  obtain ⟨fuel, hw⟩ := hstep
  obtain ⟨q', hinv, -⟩ := h.step_next hw
  exact ⟨hl.free hw, (hinv.bit m).mpr ⟨_, (step_between hw m _).mpr (.inl ⟨rfl, hl⟩)⟩⟩

/-- Only the holder unlocks, and then nobody holds the mutex. -/
theorem Inv.released (hstep : w.Steps e w') (hu : Unlocks w m w' e) :
    w.lock m % 2 = 1 ∧ w'.lock m % 2 = 0 := by
  obtain ⟨fuel, hw⟩ := hstep
  obtain ⟨q', hinv, -⟩ := h.step_next hw
  have hholds : w.holds m w.current = true := by
    cases hu with
    | unlock hpc => exact (ite_none_right_eq_some.mp hw).1.2
    | unlockSlow hpc => exact h.unlocking _ m hpc
    | condWait => exact (ite_none_right_eq_some.mp hw).1.2
  have hodd : w.lock m % 2 = 1 := (h.bit m).mpr ⟨_, hholds⟩
  refine ⟨hodd, Nat.mod_two_ne_one.mp fun hbit => ?_⟩
  obtain ⟨t, ht⟩ := (hinv.bit m).mp hbit
  rcases (step_between hw m t).mp ht with ⟨-, hl⟩ | ⟨ht, hne⟩
  · have hfree := hl.free hw
    omega
  · exact hne ⟨h.one m t _ ht hholds, hu⟩

omit h in
theorem refused (hstep : w.Steps .slow w') (hpc : w.pc w.current = .trySlow m)
    (hne : w'.tried w.current ≠ 0) : w.lock m % 2 = 1 := by
  obtain ⟨fuel, hw⟩ := hstep
  simp only [step, slow, hpc, Option.some.injEq] at hw
  rw [← hw, mutexTrylockSlow_tried] at hne
  omega

theorem Inv.sound : w.Sound := by
  refine ⟨h.one, h.bit, fun e w' hs => hs.elim fun _ hw => step_between hw,
    fun e w' hs m => h.acquired hs, fun w' hs m => refused hs, fun e w' hs m => h.released hs,
    fun m => ?_, ?_, ?_, fun e => h.returns⟩
  · refine ⟨q (.mutex m), h.waiters_iff.mpr rfl, h.placed.nodup _, fun t => ?_⟩
    rw [h.mem_iff, waitsOn_mutex_iff]
    exact and_comm
  · intro m t rest hm hw
    refine h.contender m hm ?_
    rw [← h.waiters_iff.mp hw]
    exact List.cons_ne_nil _ _
  · intro e w' hstep m hm hm' t rest hw
    obtain ⟨fuel, hstep⟩ := hstep
    obtain ⟨q', hinv, hover⟩ := h.step_next hstep
    obtain ⟨hq', hpc, hs, hothers⟩ := hover m hm hm' t rest (h.waiters_iff.mp hw).symm
    exact ⟨hinv.waiters_iff.mpr hq'.symm, hpc, hs, hothers⟩

end

/-- Whatever the threads do with the mutexes, and wherever they are interrupted. -/
theorem mutexes_sound (prio : Nat → Nat) {c : Nat} (h0 : 0 < c) (hc : c % 2 = 0)
    {es : List Event} (hrun : Run Steps (init prio c) es w) : w.Sound := by
  obtain ⟨q, hinv⟩ := inv_of_run h0 hc hrun
  exact hinv.sound

/-- Thread 2 holds mutex 0 when thread 4 wants it, and finds in the fast path that it has a waiter. -/
def contended : List Event :=
  [.lock 0 false, .switch 4, .lock 0 false, .slow, .switch 2, .unlock 0 false]

theorem run_of_fuel {es : List Event} {v : Threads}
    (h : Run (fun u e v => u.step fuel e = some v) v es w) : Run Steps v es w :=
  h.mono fun _ _ _ hs => ⟨fuel, hs⟩

theorem contended_sound : ∃ w w', Run Steps (init (fun _ => 0) 2) contended w ∧ w.Sound ∧
    w.holds 0 2 = true ∧ Steps w .slow w' ∧ w'.holds 0 2 = false ∧ w'.lock 0 % 2 = 0 ∧
    HandedTo w w' 0 4 [] := by
  have hrun : ∃ w ∈ exec (fun u e => u.step 1 e) (init (fun _ => 0) 2) contended,
      w.current = 2 ∧ w.pc 2 = .unlockSlow 0 ∧ w.holds 0 2 = true ∧ w.lock 0 = 5 ∧
        w.links.prev 4 = .head (.mutex 0) ∧ w.links.next 4 = 0 ∧
        ∃ w' ∈ w.step 1 .slow, w'.holds 0 2 = false := by
    decide +kernel
  obtain ⟨w, hw, hcur, hpc, hholds, hlock, hprev, hnext, w', hw', hholds'⟩ := hrun
  have hrun := run_of_fuel (run_of_exec hw)
  have hsound := mutexes_sound _ (by decide) (by decide) hrun
  have hstep : Steps w .slow w' := ⟨1, hw'⟩
  have hwaits : w.Waiters 0 [4] := ⟨by decide, by rw [hlock]; rfl, hprev, hnext⟩
  obtain ⟨hodd, heven⟩ := hsound.released _ _ hstep 0 (.unlockSlow (hcur ▸ hpc))
  exact ⟨w, w', hrun, hsound, hholds, hstep, hholds', heven,
    hsound.handedOver _ _ hstep 0 hodd heven 4 [] hwaits⟩

end Threads

end Mios.Kernel
