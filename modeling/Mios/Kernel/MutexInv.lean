import Mios.Kernel.Mutex

/-! The lists that the words of the mutexes lead to, the invariant over them, and the three things
that can happen to a thread: it goes on, it falls asleep, or it is woken. -/

namespace Mios.Kernel

open Function Lib Lib.BsdList Lib.Place

namespace Threads

/-! ## The word -/

@[simp] theorem noBit_withBit (v : Nat) : noBit (withBit v) = noBit v := by
  unfold noBit withBit
  omega

@[simp] theorem noBit_noBit (v : Nat) : noBit (noBit v) = noBit v := by
  unfold noBit
  omega

@[simp] theorem withBit_mod (v : Nat) : withBit v % 2 = 1 := by
  unfold withBit
  omega

@[simp] theorem noBit_mod (v : Nat) : noBit v % 2 = 0 := by
  unfold noBit
  omega

variable {t v : Nat} {w' : Threads} {wt : Waitable}

theorem noBit_eq (h : v % 2 = 0) : noBit v = v := by
  unfold noBit
  omega

/-- The pointer that the head of a list holds: in a mutex, the word without the lock bit. -/
def pointer : Waitable → Nat → Nat
  | .mutex _, v => noBit v
  | .obj _, v => v
  | .poll _, v => v

/-- The lists that the heads lead to. -/
structure Lists (L : Links Waitable) (q : Waitable → List Nat) : Prop where
  seg : ∀ wt, L.Seg (.head wt) (pointer wt (L.first wt)) (q wt)
  even : ∀ wt, ∀ t ∈ q wt, t % 2 = 0

variable {L : Links Waitable} {q : Waitable → List Nat} {loc : Nat → Option Waitable}

@[simp] theorem first_put_self (L : Links Waitable) (wt : Waitable) (v : Nat) :
    (L.put (.head wt) v).first wt = v := by
  simp [Links.put, Links.first]

theorem first_put_of_ne (L : Links Waitable) {wt' : Waitable} (h : wt' ≠ wt) (v : Nat) :
    (L.put (.head wt) v).first wt' = L.first wt' := by
  simp [Links.put, Links.first, h]

/-- The lock bit is no part of the list. -/
theorem Lists.setLock (h : Lists L q) {m : Nat} (hv : noBit v = noBit (L.first (.mutex m))) :
    Lists (L.put (.head (.mutex m)) v) q := by
  refine ⟨fun wt => ?_, h.even⟩
  have hseg : (L.put (.head (.mutex m)) v).Seg (.head wt) (pointer wt (L.first wt)) (q wt) :=
    (h.seg wt).frame (fun z _ => by simp [Links.put, Links.next]) (fun z _ => rfl)
  by_cases hwt : wt = .mutex m
  · subst hwt
    rw [first_put_self]
    simp only [pointer, hv]
    exact hseg
  · rw [first_put_of_ne _ hwt]
    exact hseg

theorem pointer_eq (h : v % 2 = 0) : pointer wt v = v := by
  cases wt with
  | mutex m => exact noBit_eq h
  | obj n => rfl
  | poll t => rfl

/-- One list has changed, and the others share nothing with what has been written. -/
theorem Lists.change (h : Lists L q) {L' : Links Waitable} {l zs : List Nat}
    (hseg : L'.Seg (.head wt) (L'.first wt) l) (heven : ∀ z ∈ l, z % 2 = 0)
    (hframe : L.Frame L' wt zs) (hd : ∀ wt', wt' ≠ wt → ∀ z ∈ q wt', z ∉ zs) :
    Lists L' (update q wt l) ∧ L'.first wt % 2 = 0 ∧
      ∀ wt', wt' ≠ wt → L'.first wt' = L.first wt' := by
  have hmod : L'.first wt % 2 = 0 := by
    rw [hseg.head]
    cases l with
    | nil => rfl
    | cons z zs => exact heven z (.head _)
  refine ⟨⟨fun wt' => ?_, fun wt' => ?_⟩, hmod, hframe.first⟩
  all_goals
    by_cases hwt : wt' = wt
  · subst hwt
    rw [update_self, pointer_eq hmod]
    exact hseg
  · rw [update_of_ne hwt, hframe.first wt' hwt]
    exact hframe.seg (h.seg wt') (hd wt' hwt)
  · subst hwt
    rw [update_self]
    exact heven
  · rw [update_of_ne hwt]
    exact h.even wt'

theorem Lists.insert (h : Lists L q) (hp : Placed q loc) (wt : Waitable)
    (hplain : pointer wt (L.first wt) = L.first wt) (ht : loc t = none) (h0 : t ≠ 0)
    (heven : t % 2 = 0) {before : Nat → Nat → Prop} [DecidableRel before] {fuel : Nat}
    {L' : Links Waitable} (hL : L.insertSorted before fuel wt t = some L') :
    Lists L' (update q wt ((q wt).orderedInsert before t)) ∧
      L'.first wt % 2 = 0 ∧ ∀ wt', wt' ≠ wt → L'.first wt' = L.first wt' := by
  have hseg := h.seg wt
  rw [hplain] at hseg
  obtain ⟨hseg', hframe⟩ :=
    (Links.insertSorted_spec before hseg (hp.nodup wt) (hp.notMem ht wt) h0 fuel).1 L' hL
  refine h.change hseg' ?_ hframe ?_
  · intro z hz
    rw [List.mem_orderedInsert] at hz
    rcases hz with rfl | hz
    · exact heven
    · exact h.even wt z hz
  · intro wt' hwt z hz hmem
    rcases List.mem_cons.mp hmem with rfl | hmem
    · exact hp.notMem ht wt' hz
    · exact hwt (hp.unique hz hmem)

theorem Lists.remove (h : Lists L q) (hp : Placed q loc) (wt : Waitable)
    (hplain : pointer wt (L.first wt) = L.first wt) (ht : t ∈ q wt) :
    Lists (L.remove t) (update q wt ((q wt).erase t)) ∧
      (L.remove t).first wt % 2 = 0 ∧
      ∀ wt', wt' ≠ wt → (L.remove t).first wt' = L.first wt' := by
  obtain ⟨xs, ys, -, hq, herase⟩ := List.exists_erase_eq ht
  have hseg := h.seg wt
  have hnodup := hp.nodup wt
  rw [hplain, hq] at hseg
  rw [hq] at hnodup
  rw [herase]
  refine h.change (hseg.remove hnodup fun z _ hc => by cases hc) ?_
    (Links.frame_remove hseg hnodup) ?_
  · intro z hz
    exact h.even wt z (List.mem_of_mem_erase (herase ▸ hz))
  · intro wt' hwt z hz hmem
    exact hwt (hp.unique hz (hq ▸ hmem))

/-! ## The invariant -/

/-- The list on which a thread sleeps. -/
def waitsOn : Pc → Option Waitable
  | .lockWait m => some (.mutex m)
  | .condWait c _ => some (.obj c)
  | .asleep n => some (.obj n)
  | .user | .lockSlow _ | .trySlow _ | .unlockSlow _ => none

theorem waitsOn_mutex {pc : Pc} {m : Nat} (h : waitsOn pc = some (.mutex m)) : pc = .lockWait m := by
  cases pc with
  | lockWait m' => simpa [waitsOn] using h
  | _ => simp [waitsOn] at h

def sleepsOn (w : Threads) (t : Nat) : Option Waitable :=
  if w.state t = .sleeping then waitsOn (w.pc t) else none

/-- A mutex is locked while a thread holds it, and one thread at most does. -/
structure Held (L : Links Waitable) (H : Nat → Nat → Bool) : Prop where
  bit : ∀ m, L.first (.mutex m) % 2 = 1 ↔ ∃ t, H m t = true
  one : ∀ m t u, H m t = true → H m u = true → t = u

/-- One mutex changes hands. -/
theorem Held.update {H H' : Nat → Nat → Bool} {L' : Links Waitable} {m : Nat} (h : Held L H)
    (o : Option Nat) (hbit : L'.first (.mutex m) % 2 = 1 ↔ o ≠ none)
    (hm : ∀ t, H' m t = true ↔ o = some t)
    (hL : ∀ m', m' ≠ m → L'.first (.mutex m') % 2 = L.first (.mutex m') % 2)
    (hH : ∀ m', m' ≠ m → H' m' = H m') : Held L' H' := by
  refine ⟨fun m' => ?_, fun m' t u ht hu => ?_⟩
  all_goals by_cases heq : m' = m
  · subst heq
    simp only [hbit, hm]
    exact Option.ne_none_iff_exists'
  · rw [hL m' heq, hH m' heq]
    exact h.bit m'
  · subst heq
    exact Option.some.inj (((hm t).mp ht).symm.trans ((hm u).mp hu))
  · rw [hH m' heq] at ht hu
    exact h.one m' t u ht hu

/-- `q` are the lists. If threads wait for a mutex that is not locked, then one that waited is
awake. -/
structure Inv (w : Threads) (q : Waitable → List Nat) : Prop extends Held w.links w.holds where
  lists : Lists w.links q
  placed : Placed q w.sleepsOn
  addr : 0 < w.current ∧ w.current % 2 = 0
  current : w.state w.current = .running ∨ w.state w.current = .sleeping
  running : ∀ t, w.state t = .running → t = w.current
  asleep : ∀ t, w.state t = .sleeping → waitsOn (w.pc t) ≠ none
  spins : ∀ m, w.pc w.current = .lockWait m → w.state w.current = .sleeping → w.lock m % 2 = 1
  contender : ∀ m, w.lock m % 2 = 0 → q (.mutex m) ≠ [] →
    ∃ t, w.pc t = .lockWait m ∧ w.state t ≠ .sleeping
  timed : ∀ t, w.timed t = true → ∃ n, waitsOn (w.pc t) = some (.obj n)
  unlocking : ∀ t m, w.pc t = .unlockSlow m → w.holds m t = true

theorem inv_init (prio : Nat → Nat) {c : Nat} (h0 : 0 < c) (hc : c % 2 = 0) :
    (init prio c).Inv fun _ => [] := by
  have hs : ∀ t, (init prio c).state t ≠ .sleeping := by
    intro t
    by_cases ht : t = c <;> simp [init, ht]
  have hfirst : ∀ wt, (init prio c).links.first wt = 0 := fun _ => rfl
  refine ⟨⟨fun m => ?_, by simp [init]⟩, ⟨fun wt => ?_, fun _ _ ht => by cases ht⟩,
    ⟨fun t wt => ?_, fun _ => List.nodup_nil⟩, ⟨h0, hc⟩, .inl ?_, ?_, ?_, ?_, ?_, ?_, ?_⟩
  · simp only [hfirst]
    simp [init]
  · rw [hfirst, pointer_eq rfl]
    rfl
  · simp [sleepsOn, hs]
  · simp [init]
  · intro t ht
    by_contra hne
    have hne : t ≠ c := hne
    simp [init, hne] at ht
  · exact fun t ht => absurd ht (hs t)
  · simp [init]
  · exact fun m _ hq => absurd rfl hq
  · simp [init]
  · simp [init]

variable {w : Threads}

theorem Inv.mem_iff (h : w.Inv q) (t : Nat) (wt : Waitable) :
    t ∈ q wt ↔ w.state t = .sleeping ∧ waitsOn (w.pc t) = some wt := by
  rw [h.placed.mem]
  unfold sleepsOn
  split
  · rename_i hs
    simp [hs]
  · rename_i hs
    simp [hs]

theorem Inv.word (h : w.Inv q) (m : Nat) : noBit (w.lock m) = (q (.mutex m)).headD 0 :=
  (h.lists.seg (.mutex m)).head

/-! ## What a step can do

The current thread goes on awake, or falls asleep on a list; or a thread is woken. -/

theorem Inv.goOn (h : w.Inv q) (hrun : w.state w.current = .running) {pc : Pc}
    {H : Nat → Nat → Bool} (hlists : Lists L q)
    (hholds : ∀ m t, t ≠ w.current → H m t = w.holds m t)
    (hheld : Held L H) (hcont : ∀ m, L.first (.mutex m) % 2 = 0 → q (.mutex m) ≠ [] →
      w.lock m % 2 = 0 ∧ w.pc w.current ≠ .lockWait m) (hoff : w.timed w.current = false)
    (hun : ∀ m, pc = .unlockSlow m → H m w.current = true) :
    { w.setPc w.current pc with links := L, holds := H }.Inv q := by
  have hpc : ∀ t, t ≠ w.current → (w.setPc w.current pc).pc t = w.pc t :=
    fun t ht => update_of_ne ht _ _
  have hloc : { w.setPc w.current pc with links := L, holds := H }.sleepsOn = w.sleepsOn := by
    funext t
    by_cases ht : t = w.current
    · simp [sleepsOn, setPc, ht, hrun]
    · simp [sleepsOn, setPc, ht]
  refine { h with
    toHeld := hheld, lists := hlists, placed := hloc ▸ h.placed
    asleep := fun t hs => ?_, spins := fun m _ hs => absurd (hrun.symm.trans hs) (by simp)
    contender := fun m hm hq => ?_, timed := fun t ht => ?_, unlocking := fun t m ht => ?_ }
  · have hne : t ≠ w.current := fun heq => by cases hrun.symm.trans (heq ▸ hs)
    rw [hpc t hne]
    exact h.asleep t hs
  · obtain ⟨hm', hne⟩ := hcont m hm hq
    obtain ⟨t, ht, hs⟩ := h.contender m hm' hq
    have htc : t ≠ w.current := fun heq => hne (heq ▸ ht)
    exact ⟨t, (hpc t htc).trans ht, hs⟩
  · have hne : t ≠ w.current := fun heq => by cases hoff.symm.trans (heq ▸ ht)
    rw [hpc t hne]
    exact h.timed t ht
  · by_cases htc : t = w.current
    · subst htc
      exact hun m ((update_self ..).symm.trans ht)
    · exact (hholds m t htc).trans (h.unlocking t m (hpc t htc ▸ ht))

theorem Inv.fallsAsleep (h : w.Inv q) {l : List Nat} {pc : Pc} {timed : Nat → Bool}
    (hrun : w.state w.current = .running) (hlists : Lists L (update q wt l))
    (hl : l.Perm (w.current :: q wt)) (hwait : waitsOn pc = some wt)
    (hlock : ∀ m, L.first (.mutex m) % 2 = w.lock m % 2)
    (hodd : ∀ m, wt = .mutex m → w.lock m % 2 = 1)
    (hold : ∀ m, w.pc w.current = .lockWait m → wt = .mutex m)
    (htimed : ∀ t, t ≠ w.current → timed t = w.timed t)
    (hon : timed w.current = true → ∃ n, wt = .obj n) :
    { (w.setState w.current .sleeping).setPc w.current pc with
      links := L, timed := timed }.Inv (update q wt l) := by
  have hloc : { (w.setState w.current .sleeping).setPc w.current pc with
      links := L, timed := timed }.sleepsOn = update w.sleepsOn w.current (some wt) := by
    funext t
    by_cases ht : t = w.current <;> simp [sleepsOn, setState, setPc, ht, hwait]
  have hnone : w.sleepsOn w.current = none := by simp [sleepsOn, hrun]
  have hself : (w.setPc w.current pc).pc w.current = pc := update_self ..
  have hpc : ∀ t, t ≠ w.current → (w.setPc w.current pc).pc t = w.pc t :=
    fun t ht => update_of_ne ht _ _
  have hstate : ∀ t, t ≠ w.current → (w.setState w.current .sleeping).state t = w.state t :=
    fun t ht => update_of_ne ht _ _
  refine { h with
    lists := hlists, placed := hloc ▸ h.placed.insert hnone hl
    bit := fun m => Iff.trans (iff_of_eq (congrArg (· = 1) (hlock m))) (h.bit m)
    current := .inr (update_self ..), running := fun t ht => ?_, asleep := fun t ht => ?_
    spins := fun m hm _ => ?_, contender := fun m hm hq => ?_, timed := fun t ht => ?_
    unlocking := fun t m ht => ?_ }
  · by_cases htc : t = w.current
    · exact htc
    · exact h.running t ((hstate t htc).symm.trans ht)
  · by_cases htc : t = w.current
    · subst htc
      exact fun hn => by cases hwait.symm.trans (hself ▸ hn)
    · exact hpc t htc ▸ h.asleep t ((hstate t htc).symm.trans ht)
  · have hm : pc = .lockWait m := hself.symm.trans hm
    rw [hm] at hwait
    exact (hlock m).trans (hodd m (Option.some.inj hwait).symm)
  · have hm : w.lock m % 2 = 0 := (hlock m).symm.trans hm
    have hne : wt ≠ .mutex m := fun heq => by rw [hodd m heq] at hm; cases hm
    rw [update_of_ne hne.symm] at hq
    obtain ⟨t, ht, hs⟩ := h.contender m hm hq
    have htc : t ≠ w.current := fun heq => hne (hold m (heq ▸ ht))
    exact ⟨t, (hpc t htc).trans ht, fun hs' => hs ((hstate t htc).symm.trans hs')⟩
  · by_cases htc : t = w.current
    · subst htc
      obtain ⟨n, rfl⟩ := hon ht
      exact ⟨n, hself.symm ▸ hwait⟩
    · exact hpc t htc ▸ h.timed t ((htimed t htc).symm.trans ht)
  · by_cases htc : t = w.current
    · subst htc
      rw [hself.symm.trans ht] at hwait
      cases hwait
    · exact h.unlocking t m (hpc t htc ▸ ht)

theorem Inv.wakes (h : w.Inv q) {s : TaskState} {H : Nat → Nat → Bool}
    (ht : t ∈ q wt) (hlists : Lists L (update q wt ((q wt).erase t)))
    (hs : s = .ready ∧ t ≠ w.current ∨ s = .running ∧ t = w.current)
    (hheld : Held L H) (hodd : ∀ m, w.pc w.current = .lockWait m → w.state w.current = .sleeping →
      L.first (.mutex m) % 2 = 1)
    (hcont : ∀ m, L.first (.mutex m) % 2 = 0 → wt = .mutex m ∨ w.lock m % 2 = 0)
    (hun : ∀ u m, w.pc u = .unlockSlow m → H m u = true) :
    { w.setState t s with links := L, holds := H }.Inv (update q wt ((q wt).erase t)) := by
  have hsl := (h.mem_iff t wt).mp ht
  have hns : s ≠ .sleeping := by rcases hs with ⟨rfl, -⟩ | ⟨rfl, -⟩ <;> simp
  have hself : (w.setState t s).state t = s := update_self ..
  have hstate : ∀ u, u ≠ t → (w.setState t s).state u = w.state u := fun u hu => update_of_ne hu _ _
  have hloc : { w.setState t s with links := L, holds := H }.sleepsOn =
      update w.sleepsOn t none := by
    funext u
    by_cases hu : u = t <;> simp [sleepsOn, setState, hu, hns]
  have hmem : w.sleepsOn t = some wt := (h.placed.mem t wt).mp ht
  have hsleep : ∀ u, (w.setState t s).state u = .sleeping → w.state u = .sleeping := by
    intro u hu
    by_cases hut : u = t
    · subst hut
      exact hsl.1
    · exact (hstate u hut).symm.trans hu
  refine { h with
    toHeld := hheld, lists := hlists, placed := hloc ▸ h.placed.erase hmem
    current := ?_, running := fun u hu => ?_, asleep := fun u hu => h.asleep u (hsleep u hu)
    spins := fun m hm hsc => hodd m hm (hsleep _ hsc), contender := fun m hm hq => ?_
    unlocking := hun }
  · by_cases hut : w.current = t
    · rcases hs with ⟨-, hne⟩ | ⟨rfl, -⟩
      · exact absurd hut.symm hne
      · exact .inl (hut ▸ hself)
    · exact hstate _ hut ▸ h.current
  · by_cases hut : u = t
    · subst hut
      rcases hs with ⟨rfl, -⟩ | ⟨-, heq⟩
      · cases hself.symm.trans hu
      · exact heq
    · exact h.running u ((hstate u hut).symm.trans hu)
  · by_cases hwt : wt = .mutex m
    · subst hwt
      exact ⟨t, waitsOn_mutex hsl.2, fun hs' => hns (hself.symm.trans hs')⟩
    · rw [update_of_ne (Ne.symm hwt)] at hq
      obtain ⟨u, hu, hus⟩ := h.contender m ((hcont m hm).resolve_left hwt) hq
      exact ⟨u, hu, fun hsl' => hus (hsleep u hsl')⟩

end Threads

end Mios.Kernel
