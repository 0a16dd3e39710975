import Mios.Kernel.MutexInv

/-! The slow paths, one after the other: each keeps the invariant, and the unlock hands the mutex
to its first waiter. -/

namespace Mios.Kernel

open Function Lib Lib.BsdList Lib.Place

namespace Threads

variable {q : Waitable → List Nat} {w : Threads}

/-! ## Locking and unlocking -/

@[simp] theorem lock_setLock_self (m v : Nat) : (w.setLock m v).lock m = v := by
  simp [lock, setLock]

variable {fuel m m' n t : Nat} {pc : Pc} {w' : Threads} {q' : Waitable → List Nat}

theorem mutex_ne (h : m' ≠ m) : Waitable.mutex m' ≠ .mutex m :=
  fun heq => h (by cases heq; rfl)

theorem lock_setLock_of_ne (h : m' ≠ m) (v : Nat) : (w.setLock m v).lock m' = w.lock m' := by
  simp [lock, setLock, first_put_of_ne _ (mutex_ne h)]

theorem setPc_user (hc : w.calls) : w.setPc w.current .user = w := by
  simp [setPc, ← hc.2]

section

variable (h : w.Inv q)
include h

/-- The thread that is awake and not asleep on a list has no timer. -/
theorem Inv.not_timed (hpc : ∀ n, waitsOn (w.pc t) ≠ some (.obj n)) : w.timed t = false := by
  by_contra ht
  obtain ⟨n, hn⟩ := h.timed t (by simpa using ht)
  exact hpc n hn

theorem Inv.setPc (hrun : w.state w.current = .running)
    (hold : ∀ m, w.pc w.current ≠ .lockWait m) (hoff : w.timed w.current = false)
    (hun : ∀ m, pc = .unlockSlow m → w.holds m w.current = true) :
    (w.setPc w.current pc).Inv q := by
  exact h.goOn hrun h.lists (fun _ _ _ => rfl) h.toHeld (fun m hm _ => ⟨hm, hold m⟩) hoff hun

theorem Inv.no_holder (hm : w.lock m % 2 = 0) (t : Nat) : w.holds m t = false := by
  by_contra ht
  have hbit : w.lock m % 2 = 1 := (h.bit m).mpr ⟨t, by simpa using ht⟩
  omega

/-- The current thread finds the lock bit clear, and sets it. -/
theorem Inv.acquire (hrun : w.state w.current = .running) {v : Nat}
    (hfree : w.lock m % 2 = 0) (hv : noBit v = noBit (w.lock m)) (hodd : v % 2 = 1)
    (hold : ∀ m', w.pc w.current = .lockWait m' → m' = m) (hoff : w.timed w.current = false) :
    (((w.setLock m v).setPc w.current .user).setHolds m w.current true).Inv q := by
  refine h.goOn hrun (h.lists.setLock hv) ?_ (h.toHeld.update (m := m) (some w.current) ?_
    (fun t => ?_) (fun m' hm => congrArg (· % 2) (lock_setLock_of_ne hm v))
    fun m' hm => update_of_ne hm _ _) ?_ hoff (by simp)
  · intro m' t ht
    by_cases hm : m' = m
    · subst hm
      simp [Threads.setPc, Threads.setLock, ht]
    · simp [Threads.setPc, Threads.setLock, hm]
  · simp [Threads.setPc, Threads.setLock, hodd]
  · by_cases ht : t = w.current
    · simp [Threads.setPc, Threads.setLock, ht]
    · simp [Threads.setPc, Threads.setLock, ht, h.no_holder hfree, Ne.symm ht]
  · intro m' hm' _
    have hm' : (w.setLock m v).lock m' % 2 = 0 := hm'
    by_cases hm : m' = m
    · subst hm
      rw [lock_setLock_self] at hm'
      omega
    · rw [lock_setLock_of_ne hm] at hm'
      exact ⟨hm', fun heq => hm (hold m' heq)⟩

theorem Inv.queue_nil (hm : noBit (w.lock m) = 0) : q (.mutex m) = [] := by
  have hseg := h.lists.seg (.mutex m)
  have hw := h.word m
  rw [hm] at hw
  cases hq : q (.mutex m) with
  | nil => rfl
  | cons t rest =>
    rw [hq] at hseg hw
    exact absurd hw.symm hseg.1

/-- The slow path of the unlock: the first waiter, if there is one, is made ready. -/
inductive Unlocked (w : Threads) (q : Waitable → List Nat) (m : Nat) (w' : Threads) : Prop
  | alone (hq : q (.mutex m) = []) (hinv : w'.Inv q) (hstate : w'.state = w.state)
      (hlock : ∀ m', m' ≠ m → w'.lock m' = w.lock m')
  | woken {t : Nat} {rest : List Nat} (hq : q (.mutex m) = t :: rest)
      (hinv : w'.Inv (update q (.mutex m) rest)) (hstate : w'.state = update w.state t .ready)
      (hlock : ∀ m', m' ≠ m → w'.lock m' = w.lock m')

omit h in
theorem lock_clearLock (m : Nat) : (w.clearLock m).lock m = noBit (w.lock m) := lock_setLock_self _ _

omit h in
theorem plain_clearLock (m : Nat) :
    pointer (.mutex m) ((w.clearLock m).lock m) = (w.clearLock m).lock m := by
  rw [lock_clearLock]
  exact noBit_noBit _

omit h in
theorem lock_clearLock_of_ne (h : m' ≠ m) : (w.clearLock m).lock m' = w.lock m' :=
  lock_setLock_of_ne h _

section

variable (hh : w.holds m w.current = true)
include hh

/-- The holder has given the mutex up. -/
theorem Inv.held_clearLock {L : Links Waitable} (heven : L.first (.mutex m) % 2 = 0)
    (hL : ∀ m', m' ≠ m → L.first (.mutex m') = w.lock m') : Held L (w.clearLock m).holds := by
  refine h.toHeld.update (m := m) none (by simp [heven]) (fun t => ?_)
    (fun m' hm => congrArg (· % 2) (hL m' hm)) fun m' hm => update_of_ne hm _ _
  have ht : t ≠ w.current → w.holds m t ≠ true := fun ht hc => ht (h.one m t _ hc hh)
  by_cases htc : t = w.current
  · simp [clearLock, setHolds, htc]
  · simpa [clearLock, setHolds, Threads.setLock, htc] using ht htc

theorem Inv.unlock_alone (hc : w.calls) (hq : q (.mutex m) = []) : (w.clearLock m).Inv q := by
  rw [← setPc_user (w := w.clearLock m) hc]
  obtain ⟨hrun, hpc⟩ := hc
  refine h.goOn hrun (h.lists.setLock (noBit_noBit _)) ?_
    (h.held_clearLock hh ((congrArg (· % 2) (lock_clearLock m)).trans (noBit_mod _))
      fun m' hm => lock_clearLock_of_ne hm) ?_ (h.not_timed (by simp [hpc, waitsOn])) (by simp)
  · intro m' t ht
    by_cases hm : m' = m
    · subst hm
      simp [clearLock, setHolds, Threads.setLock, ht]
    · simp [clearLock, setHolds, Threads.setLock, hm]
  · intro m' hm' hne
    have hm' : (w.clearLock m).lock m' % 2 = 0 := hm'
    by_cases hm : m' = m
    · subst hm
      exact absurd hq hne
    · rw [lock_clearLock_of_ne hm] at hm'
      exact ⟨hm', by simp [hpc]⟩

/-- Without the lock bit nothing is left of the word. -/
theorem Inv.unlock_fast (hc : w.calls) (h1 : w.lock m = 1) :
    ((w.setLock m 0).setHolds m w.current false).Inv q := by
  have hzero : noBit (w.lock m) = 0 := by rw [h1]; rfl
  have hinv := h.unlock_alone hh hc (h.queue_nil hzero)
  rwa [clearLock, hzero] at hinv

theorem Inv.unlock_wakes (hc : w.calls) {rest : List Nat} (hq : q (.mutex m) = t :: rest) :
    ({ w.clearLock m with links := (w.clearLock m).links.remove t }.setState t .ready).Inv
      (update q (.mutex m) rest) ∧
      ∀ m', m' ≠ m → ((w.clearLock m).links.remove t).first (.mutex m') = w.lock m' := by
  obtain ⟨hrun, hpc⟩ := hc
  have hmem : t ∈ q (.mutex m) := by rw [hq]; exact (.head _)
  have hsl := ((h.mem_iff t _).mp hmem).1
  have htc : t ≠ w.current := fun heq => by simp [heq, hrun] at hsl
  have hlists : Lists (w.clearLock m).links q := h.lists.setLock (noBit_noBit _)
  have hplain : pointer (.mutex m) ((w.clearLock m).lock m) = (w.clearLock m).lock m := by
    rw [lock_clearLock]
    exact noBit_noBit _
  obtain ⟨hrem, hmod, hothers⟩ := hlists.remove h.placed _ hplain hmem
  have hlocks : ∀ m', m' ≠ m → ((w.clearLock m).links.remove t).first (.mutex m') = w.lock m' :=
    fun m' hm => (hothers _ (mutex_ne hm)).trans (lock_clearLock_of_ne hm)
  have herase : (q (.mutex m)).erase t = rest := by rw [hq, List.erase_cons_head]
  rw [← herase]
  refine ⟨?_, hlocks⟩
  refine h.wakes hmem hrem (.inl ⟨rfl, htc⟩) (h.held_clearLock hh hmod hlocks) ?_ ?_ ?_
  · intro m' hm' hs
    simp [hrun] at hs
  · intro m' hm'
    by_cases hm : m' = m
    · exact .inl (by rw [hm])
    · have hl : w.lock m' % 2 = 0 := by
        rw [← hlocks m' hm]
        exact hm'
      exact .inr hl
  · intro u m' hu
    have hholds := h.unlocking u m' hu
    have hm : m' ≠ m := by
      rintro rfl
      rw [h.one m' u w.current hholds hh, hpc] at hu
      cases hu
    simpa [clearLock, setHolds, Threads.setLock, hm] using hholds

theorem Inv.mutexUnlockSchedLocked (hc : w.calls) :
    Unlocked w q m (w.mutexUnlockSchedLocked m) := by
  have hlock : (w.clearLock m).lock m = (q (.mutex m)).headD 0 := by
    rw [lock_clearLock]
    exact h.word m
  unfold Threads.mutexUnlockSchedLocked
  dsimp only
  rw [hlock]
  cases hq : q (.mutex m) with
  | nil =>
    rw [List.headD_nil, if_neg (by simp)]
    exact .alone hq (h.unlock_alone hh hc hq) rfl fun m' hm => lock_clearLock_of_ne hm
  | cons t rest =>
    have hseg := h.lists.seg (.mutex m)
    rw [hq] at hseg
    rw [List.headD_cons, if_pos hseg.1]
    obtain ⟨hinv, hlocks⟩ := h.unlock_wakes hh hc hq
    exact .woken hq hinv rfl hlocks

end

/-! ## Waking and sleeping -/

/-- No mutex becomes free. -/
def Keeps (w w' : Threads) : Prop := ∀ m, w.lock m % 2 = 1 → w'.lock m % 2 = 1

omit h in
theorem Keeps.of_eq (h : ∀ m, w'.lock m = w.lock m) : w.Keeps w' :=
  fun m hm => (h m).symm ▸ hm

theorem Inv.wake (ht : t ∈ q (.obj n)) : (w.wake t).Inv (update q (.obj n) ((q (.obj n)).erase t)) ∧
      ∀ m, (w.wake t).lock m = w.lock m := by
  obtain ⟨hrem, -, hothers⟩ := h.lists.remove h.placed (.obj n) rfl ht
  have hlock : ∀ m, (w.wake t).lock m = w.lock m := fun m => hothers (.mutex m) (by simp)
  have hmod : ∀ m, (w.wake t).lock m % 2 = w.lock m % 2 := fun m => congrArg (· % 2) (hlock m)
  refine ⟨h.wakes ht hrem ?_ ⟨fun m => (iff_of_eq (congrArg (· = 1) (hmod m))).trans (h.bit m), h.one⟩
    (fun m hm hs => (hmod m).trans (h.spins m hm hs)) (fun m hm => .inr ((hmod m).symm.trans hm))
    h.unlocking, hlock⟩
  by_cases htc : t = w.current
  · exact .inr ⟨by simp [htc], htc⟩
  · exact .inl ⟨by simp [htc], htc⟩

theorem Inv.first_mem (hne : w.links.first (.obj n) ≠ 0) : w.links.first (.obj n) ∈ q (.obj n) := by
  have hhead : w.links.first (.obj n) = (q (.obj n)).headD 0 := (h.lists.seg (.obj n)).head
  cases hq : q (.obj n) with
  | nil =>
    rw [hq] at hhead
    exact absurd hhead hne
  | cons t rest =>
    rw [hq, List.headD_cons] at hhead
    rw [hhead]
    exact (.head _)

omit h in
theorem Inv.taskWakeup (fuel : Nat) (h : w.Inv q) (n : Nat) (all : Bool)
    (hw : taskWakeup fuel w n all = some w') : ∃ q', w'.Inv q' ∧ ∀ m, w'.lock m = w.lock m := by
  induction fuel generalizing w q with
  | zero => cases hw
  | succ fuel ih =>
    unfold Threads.taskWakeup at hw
    split at hw
    · cases hw
      exact ⟨q, h, fun _ => rfl⟩
    · rename_i hne
      obtain ⟨hwake, hlock⟩ := h.wake (h.first_mem hne)
      split at hw
      · obtain ⟨q', hinv, hlock'⟩ := ih hwake hw
        exact ⟨q', hinv, fun m => (hlock' m).trans (hlock m)⟩
      · cases hw
        exact ⟨_, hwake, hlock⟩

theorem Inv.disarm (t : Nat) : { w with timed := update w.timed t false }.Inv q := by
  refine { h with timed := ?_ }
  intro u hu
  by_cases hut : u = t
  · simp [hut] at hu
  · exact h.timed u (by simpa [hut] using hu)

theorem Inv.sleepAt (hc : w.calls) {timed : Bool}
    (hpc : waitsOn pc = some (.obj n)) (hw : w.sleepAt fuel n pc timed = some w') :
    (∀ m, w'.lock m = w.lock m) ∧
      w'.Inv (update q (.obj n)
        ((q (.obj n)).orderedInsert (fun a b => w.prio b < w.prio a) w.current)) ∧
      w'.state = update w.state w.current .sleeping ∧ w'.pc = update w.pc w.current pc := by
  obtain ⟨hrun, hupc⟩ := hc
  simp only [Threads.sleepAt, taskSleep, taskInsertWaitList, Option.map_map,
    Option.map_eq_some_iff] at hw
  obtain ⟨L', hL, rfl⟩ := hw
  have hnone : w.sleepsOn w.current = none := by simp [sleepsOn, hrun]
  have hL : w.links.insertSorted (fun a b => w.prio b < w.prio a) fuel (.obj n) w.current = some L' :=
    hL
  obtain ⟨hlists, -, hothers⟩ := h.lists.insert h.placed (.obj n) rfl hnone
    (Nat.ne_of_gt h.addr.1) h.addr.2 hL
  have hlock : ∀ m, L'.first (.mutex m) = w.lock m := fun m => hothers (.mutex m) (by simp)
  refine ⟨hlock, ?_, rfl, rfl⟩
  refine h.fallsAsleep hrun hlists (List.perm_orderedInsert _ _ _) hpc
    (fun m => congrArg (· % 2) (hlock m)) (by simp) ?_ (fun t ht => update_of_ne ht _ _)
    (fun _ => ⟨n, rfl⟩)
  intro m hm
  simp [hupc] at hm

/-- The current thread finds the lock bit set. It is taken out of the word while the thread is put
on the list, and set again. -/
theorem Inv.lockSleeps (hrun : w.state w.current = .running)
    (hodd : w.lock m % 2 = 1) (hold : ∀ m', w.pc w.current = .lockWait m' → m' = m)
    (hoff : w.timed w.current = false) {L' : Links Waitable}
    (hL : (w.setLock m (noBit (w.lock m))).links.insertSorted (fun a b => w.prio b < w.prio a) fuel
      (.mutex m) w.current = some L') {w' : Threads}
    (hw' : w' = ({ w.setState w.current .sleeping with links := L' }.setLock m
      (withBit (L'.first (.mutex m)))).setPc w.current (.lockWait m)) :
    w'.Inv (update q (.mutex m)
      ((q (.mutex m)).orderedInsert (fun a b => w.prio b < w.prio a) w.current)) ∧
      ∀ m', w'.lock m' % 2 = w.lock m' % 2 := by
  subst hw'
  have hnone : w.sleepsOn w.current = none := by simp [sleepsOn, hrun]
  have hclear : Lists (w.setLock m (noBit (w.lock m))).links q := h.lists.setLock (noBit_noBit _)
  obtain ⟨hlists, hmod, hothers⟩ := hclear.insert h.placed _ (plain_clearLock m) hnone
    (Nat.ne_of_gt h.addr.1) h.addr.2 hL
  have hlock : ∀ m', (L'.put (.head (.mutex m)) (withBit (L'.first (.mutex m)))).first (.mutex m') % 2
      = w.lock m' % 2 := by
    intro m'
    by_cases hm : m' = m
    · subst hm
      rw [first_put_self, withBit_mod, hodd]
    · rw [first_put_of_ne _ (mutex_ne hm), hothers _ (mutex_ne hm)]
      exact congrArg (· % 2) (lock_setLock_of_ne hm _)
  refine ⟨?_, hlock⟩
  refine h.fallsAsleep hrun (hlists.setLock (noBit_withBit _)) (List.perm_orderedInsert _ _ _) rfl
    hlock ?_ ?_ (fun _ _ => rfl) ?_
  · intro m' hm
    cases hm
    exact hodd
  · intro m' hm
    rw [hold m' hm]
  · exact fun ht => by cases hoff.symm.trans ht

omit h in
theorem keeps_acquire (hfree : w.lock m % 2 = 0) (v : Nat) : w.Keeps (w.setLock m v) := by
  intro m' hm'
  by_cases hm : m' = m
  · subst hm
    omega
  · exact (congrArg (· % 2) (lock_setLock_of_ne hm _)).trans hm'

/-- The current thread goes once around the loop of `mutex_lock_sched_locked`. -/
theorem Inv.mutexLockSchedLocked (hold : ∀ m', w.pc w.current = .lockWait m' → m' = m)
    (hsl : w.state w.current = .sleeping → w.pc w.current = .lockWait m)
    (hoff : w.timed w.current = false)
    (hw : w.mutexLockSchedLocked fuel m = some w') : ∃ q', w'.Inv q' ∧ w.Keeps w' := by
  unfold Threads.mutexLockSchedLocked at hw
  split at hw
  · rename_i hodd
    split at hw
    · rename_i hns
      have hrun := h.current.resolve_right hns
      simp only [taskInsertWaitList, Option.map_map, Option.map_eq_some_iff] at hw
      obtain ⟨L', hL, hw'⟩ := hw
      obtain ⟨hinv, hlock⟩ := h.lockSleeps hrun hodd hold hoff hL hw'.symm
      exact ⟨_, hinv, fun m' hm' => (hlock m').trans hm'⟩
    · rename_i hs
      cases hw
      refine ⟨q, ?_, fun m hm => hm⟩
      have heq : w.setPc w.current (.lockWait m) = w := by
        have hpc := hsl (by simpa using hs)
        simp [Threads.setPc, ← hpc]
      rw [heq]
      exact h
  · rename_i hfree
    cases hw
    have hfree : w.lock m % 2 = 0 := by omega
    have hrun : w.state w.current = .running := by
      refine h.current.resolve_right fun hs => ?_
      have hodd := h.spins m (hsl hs) hs
      omega
    exact ⟨q, h.acquire hrun hfree (noBit_withBit _) (withBit_mod _) hold hoff,
      keeps_acquire hfree _⟩

end

/-! ## Hand-over -/

/-- If a mutex becomes free while threads wait for it, the first of them is made ready and leaves
the list; for the others nothing changes. -/
def HandsOver (w : Threads) (q : Waitable → List Nat) (w' : Threads) (q' : Waitable → List Nat) :
    Prop :=
  ∀ m, w.lock m % 2 = 1 → w'.lock m % 2 = 0 → ∀ t rest, q (.mutex m) = t :: rest →
    q' (.mutex m) = rest ∧ w'.pc t = .lockWait m ∧ w'.state t = .ready ∧
    ∀ u, u ≠ t → w.pc u = .lockWait m → w'.pc u = .lockWait m ∧ w'.state u = w.state u

theorem Keeps.handsOver (h : w.Keeps w') : HandsOver w q w' q' := by
  intro m hm hm'
  have hodd := h m hm
  omega

/-- What does not touch the waiters may come before. -/
theorem HandsOver.after {w₀ : Threads} (h : HandsOver w q w' q') (hlock : ∀ m, w₀.lock m = w.lock m)
    (hwait : ∀ u m, w₀.pc u = .lockWait m → w.pc u = .lockWait m ∧ w.state u = w₀.state u) :
    HandsOver w₀ q w' q' := by
  intro m hm hm' t rest hq
  rw [hlock] at hm
  obtain ⟨hq', hpc, hs, hothers⟩ := h m hm hm' t rest hq
  refine ⟨hq', hpc, hs, fun u hu hpu => ?_⟩
  obtain ⟨hpu', hsu⟩ := hwait u m hpu
  obtain ⟨hpc', hs'⟩ := hothers u hu hpu'
  exact ⟨hpc', hs'.trans hsu⟩

theorem HandsOver.before {w₁ : Threads} {q₁ : Waitable → List Nat}
    (h : HandsOver w q w₁ q₁) (hlock : ∀ m, w'.lock m = w₁.lock m)
    (hq' : ∀ m, q' (.mutex m) = q₁ (.mutex m))
    (hwait : ∀ u m, w₁.pc u = .lockWait m → w'.pc u = .lockWait m ∧ w'.state u = w₁.state u) :
    HandsOver w q w' q' := by
  intro m hm hm' t rest hq
  rw [hlock] at hm'
  obtain ⟨hq₁, hpc, hs, hothers⟩ := h m hm hm' t rest hq
  obtain ⟨hpc', hs'⟩ := hwait t m hpc
  refine ⟨(hq' m).trans hq₁, hpc', hs'.trans hs, fun u hu hpu => ?_⟩
  obtain ⟨hpu₁, hsu₁⟩ := hothers u hu hpu
  obtain ⟨hpu', hsu'⟩ := hwait u m hpu₁
  exact ⟨hpu', hsu'.trans hsu₁⟩

@[simp] theorem mutexUnlockSchedLocked_pc (m : Nat) : (w.mutexUnlockSchedLocked m).pc = w.pc := by
  unfold mutexUnlockSchedLocked
  dsimp only
  split <;> rfl

@[simp] theorem mutexUnlockSchedLocked_current (m : Nat) :
    (w.mutexUnlockSchedLocked m).current = w.current := by
  unfold mutexUnlockSchedLocked
  dsimp only
  split <;> rfl

theorem Inv.unlock_handsOver (h : w.Inv q) (hc : w.calls) (hh : w.holds m w.current = true) :
    ∃ q', (w.mutexUnlockSchedLocked m).Inv q' ∧ (w.mutexUnlockSchedLocked m).calls ∧
      HandsOver w q (w.mutexUnlockSchedLocked m) q' := by
  have hpc : (w.mutexUnlockSchedLocked m).pc (w.mutexUnlockSchedLocked m).current = .user := by
    rw [mutexUnlockSchedLocked_pc, mutexUnlockSchedLocked_current]
    exact hc.2
  cases h.mutexUnlockSchedLocked hh hc with
  | alone hq hinv hstate hlock =>
    refine ⟨q, hinv, ⟨by rw [hstate, mutexUnlockSchedLocked_current]; exact hc.1, hpc⟩, ?_⟩
    intro m' hm hm' t rest hq'
    by_cases hmm : m' = m
    · rw [hmm, hq] at hq'
      cases hq'
    · rw [hlock m' hmm] at hm'
      omega
  | @woken t rest hq hinv hstate hlock =>
    have hmem : t ∈ q (.mutex m) := by rw [hq]; exact (.head _)
    obtain ⟨hsl, hwait⟩ := (h.mem_iff t _).mp hmem
    have htc : w.current ≠ t := fun heq => by
      rw [← heq, hc.1] at hsl
      cases hsl
    refine ⟨_, hinv, ⟨?_, hpc⟩, ?_⟩
    · rw [hstate, mutexUnlockSchedLocked_current, update_of_ne htc]
      exact hc.1
    intro m' hm hm' t' rest' hq'
    by_cases hmm : m' = m
    · subst hmm
      rw [hq] at hq'
      cases hq'
      rw [mutexUnlockSchedLocked_pc, hstate, update_self, update_self]
      exact ⟨rfl, waitsOn_mutex hwait, rfl, fun u hu hpu => ⟨hpu, update_of_ne hu _ _⟩⟩
    · rw [hlock m' hmm] at hm'
      omega

end Threads

end Mios.Kernel
