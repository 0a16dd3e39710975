import Mios.Kernel.ThreadInv

/-! References to threads: the enumeration of all threads, exit and join keep the invariant,
under what each of them needs of the references that others hold. -/

namespace Mios.Kernel

open Function Lib

/-- With its own reference kept, a thread stays what it is when another one is given back. -/
theorem View.Good.drop {v : View} (h : v.Good) (hown : v.own = .kept) (hrefs : v.refs ≠ 0) :
    v.refcount = v.refs + 1 ∧ v.refcount < 256 ∧
      View.Good { v with refcount := v.refcount - 1, refs := v.refs - 1 } := by
  cases h with
  | live hl =>
    obtain ⟨hcount, hbyte⟩ := And.intro hl.count hl.byte
    refine ⟨hcount, hbyte, .live { hl with count := ?_, byte := ?_ }⟩ <;> simp only <;> omega
  | zombie hz =>
    obtain ⟨hcount, hbyte⟩ := And.intro hz.count hz.byte
    rw [hown, Own.counts] at hcount
    refine ⟨hcount, hbyte, .zombie { hz with
      count := ?_, byte := ?_, last := fun hg => by cases hown.symm.trans hg }⟩ <;>
      simp only [hown, Own.counts] <;> omega
  | unused hv | idle hv | task hv | mux hv | reaped hv => exact absurd hv.refs hrefs

namespace World

variable {w : World}

/-! ## One thread changes -/

variable {t : Nat} {w' : World}

theorem ActOk.change {d : Nat} {a : Activity} (h : w.ActOk d a)
    (hview : ∀ u, u ≠ t → w'.view u = w.view u) (hkind : w'.kind = w.kind)
    (hjoin : w.joiner t = some d → w'.joiner t = some d ∧ w'.own t = w.own t ∧
      (w.exited t → w'.exited t) ∧ (w.own t = .loaded → w'.refcount t = w.refcount t)) :
    w'.ActOk d a := by
  refine h.mono (fun m hm => (congrFun hkind m).trans hm) fun u hj => ?_
  by_cases hu : u = t
  · subst hu
    exact hjoin hj
  · have hv := hview u hu
    exact ⟨(congrArg View.joiner hv :).trans hj, (congrArg View.own hv :),
      fun hex => (congrArg View.exited hv).mpr hex, fun _ => (congrArg View.refcount hv :)⟩

/-! ## References -/

theorem refs_cons (c t u : Nat) :
    { w with held := (c, t) :: w.held }.refs u = w.refs u + if u = t then 1 else 0 := by
  simp only [refs, List.map_cons, List.count_cons, beq_iff_eq]
  simp only [eq_comm]

/-- A reference that was given to `c` is given back. -/
def giveBack (w : World) (c t : Nat) : World :=
  { w with held := w.held.erase (c, t) }.dropRef t (w.refcount t)

theorem refs_giveBack {c : Nat} (hmem : (c, t) ∈ w.held) (u : Nat) :
    w.refs u = (w.giveBack c t).refs u + if u = t then 1 else 0 := by
  have hperm := (List.perm_cons_erase hmem).map Prod.snd
  have hcount := hperm.count_eq u
  simp only [List.map_cons, List.count_cons, beq_iff_eq] at hcount
  simp only [refs]
  rw [hcount]
  simp only [eq_comm]
  rfl

/-- `thread_get_next` takes a reference to a thread of the list. -/
theorem Inv.retain (h : w.Inv) (hmem : t ∈ w.all) (hroom : w.refs t < 254) (c : Nat) :
    { w.threadRetain t with held := (c, t) :: w.held }.Inv := by
  obtain ⟨hkind, hex⟩ := (h.all t).mp hmem
  have hl := h.live hkind hex
  have hcount : w.refcount t = w.refs t + 1 := hl.count
  have hrefs : ∀ u, { w.threadRetain t with held := (c, t) :: w.held }.refs u =
      w.refs u + if u = t then 1 else 0 := fun u => refs_cons c t u
  have hnew : (w.threadRetain t).refcount t = w.refs t + 2 := by
    simp only [threadRetain, update_self]
    omega
  have hview : ∀ u, u ≠ t →
      { w.threadRetain t with held := (c, t) :: w.held }.view u = w.view u := by
    intro u hu
    simp only [view, hrefs]
    simp [threadRetain, exited, hu]
  refine { h with acts := fun d => ?_, good := good_of (fun u _ => h.good u) hview ?_ }
  · refine (h.acts d).change hview rfl (fun hj => ⟨hj, rfl, id, fun hload => ?_⟩)
    cases hload.symm.trans hl.own
  · refine .live { hl with count := ?_, byte := ?_ }
    · simp only [view, hrefs, hnew, if_true]
    · simp only [view, hnew]
      omega

/-! ## Reaping -/

@[simp] theorem reap_task (t : Nat) : (w.reap t).sched.task = update w.sched.task t
    { w.sched.task t with thread := false, prio := 1, state := .ready } := by
  simp [reap, Sched.readyqueueInsert]

/-- A thread that is on no queue is put on the ready queue that frees it. -/
theorem reap_ok (h : w.sched.Ok) {t : Nat} (hs : (w.sched.task t).state ≠ .ready)
    (hl : (w.sched.task t).link = none) : (w.reap t).sched.Ok := by
  have hset : Sched.Ok { w.sched with
      task := update w.sched.task t { w.sched.task t with thread := false, prio := 1 } } := by
    refine h.setTask ?_ (by simp [hl]) (by simp) (h.running t)
    rw [Sched.place_eq_none hs hl]
    simp [Task.place, hs, hl]
  exact hset.readyqueueInsert (by simpa using hs) (by simpa using hl)

/-- A zombie that nobody will join any more is reaped if no reference is left. -/
theorem Frame.settle (h : w.Frame) (hgood : ∀ u, u ≠ t → (w.view u).Good) (hown : w.own t = .gone)
    (hz : View.Zombie { w.view t with own := .dropped }) : (w.reapIfLast t).Inv := by
  have hs : (w.sched.task t).state = .zombie := hz.state
  have hcount : w.refcount t = w.refs t := hz.count
  have hjoiner : w.joiner t ≠ none := fun hj => by cases hz.joiner hj
  unfold reapIfLast
  split
  · rename_i hne
    refine { h with good := good_of hgood (fun _ _ => rfl) (.zombie { hz with
      joiner := fun hj => absurd hj hjoiner, count := ?_, last := fun _ => ?_ }) }
    · simpa [view, hown, Own.counts] using hcount
    · exact Nat.pos_of_ne_zero fun hr => hne (hcount.trans hr)
  · rename_i hzero
    have hl := h.ok.link_eq_none (t := t) (by simp [hs]) (by simp [hs])
    have hcz : w.refcount t = 0 := not_not.mp hzero
    refine { h.setSched (reap_ok h.ok (by simp [hs]) hl) (reap_task t) rfl (by simp [hl])
      (fun ht => ?_) with good := good_of hgood (fun u hu => ?_) (.reaped ?_) }
    · simp [(h.timers t ht).1] at hs
    · simp only [view, reap_task, update_of_ne hu]
      rfl
    · exact ⟨hz.kind, by simp [view], hz.exited, hown, fun hj => absurd hj hjoiner,
        hcount.symm.trans hcz, hcz, by simp [view], .inl ⟨by simp [view], hz.runs, hz.reclaimed⟩⟩

/-- `thread_get_next` gives back the reference that it was given. -/
theorem Inv.release (h : w.Inv) {c : Nat} (hheld : (c, t) ∈ w.held)
    (hjoin : w.own t = .kept ∨ w.own t = .gone) :
    ({ w with held := w.held.erase (c, t) }.threadRelease t).Inv := by
  have hrefs : w.refs t = (w.giveBack c t).refs t + 1 := by simpa using refs_giveBack hheld t
  have hcount : (w.giveBack c t).refcount t = (w.refcount t + 255) % 256 := by
    simp [giveBack, dropRef]
  have hview : ∀ u, u ≠ t → (w.giveBack c t).view u = w.view u := by
    intro u hu
    have hr : (w.giveBack c t).refs u = w.refs u := by simpa [hu] using (refs_giveBack hheld u).symm
    simp only [view, hr]
    simp [giveBack, dropRef, hu, exited]
  have hframe : (w.giveBack c t).Frame := by
    refine { h with acts := fun d => (h.acts d).change hview rfl fun hj => ⟨hj, rfl, id, ?_⟩ }
    rcases hjoin with hj | hj <;> simp [hj]
  have hsome : (w.view t).refs ≠ 0 := by
    simp only [view]
    omega
  show ((w.giveBack c t).reapIfLast t).Inv
  rcases hjoin with hown | hown
  · obtain ⟨hc, hbyte, hgood⟩ := (h.good t).drop hown hsome
    simp only [view] at hc hbyte
    have hkeep : (w.giveBack c t).reapIfLast t = w.giveBack c t := if_pos (by omega)
    have hr : (w.giveBack c t).refs t = w.refs t - 1 := by omega
    have hcnt : (w.giveBack c t).refcount t = w.refcount t - 1 := by omega
    rw [hkeep]
    refine { hframe with good := good_of (fun u _ => h.good u) hview ?_ }
    simp only [view, hr, hcnt]
    exact hgood
  · have hz : (w.view t).Zombie := by
      cases h.good t with
      | zombie hz => exact hz
      | live hl => cases hown.symm.trans hl.own
      | unused hv | idle hv | task hv | mux hv | reaped hv => exact absurd hv.refs hsome
    have hc : w.refcount t = w.refs t := by simpa [view, hown, Own.counts] using hz.count
    have hbyte : w.refcount t < 256 := hz.byte
    refine hframe.settle (fun u hu => hview u hu ▸ h.good u) hown { hz with
      joiner := fun hj => by cases hown.symm.trans (hz.joiner hj)
      count := ?_, byte := ?_, last := fun hg => by cases hg }
    all_goals
      simp only [view, Own.counts]
      omega

theorem nextOf_mem {cur : Nat} {l : List Nat} (h : nextOf cur l = some t) : t ∈ l := by
  induction l with
  | nil => cases h
  | cons u rest ih =>
    unfold nextOf at h
    split at h
    · exact .tail _ (List.mem_of_head? h)
    · exact .tail _ (ih h)

theorem nextThread_mem {cur : Option Nat} (h : w.nextThread cur = some t) : t ∈ w.all := by
  cases cur with
  | none => exact List.mem_of_head? h
  | some c => exact nextOf_mem h

theorem Inv.threadGetNext (h : w.Inv) {cur : Option Nat}
    (hheld : ∀ t ∈ cur, (w.sched.current, t) ∈ w.held)
    (hroom : ∀ t ∈ w.nextThread cur, w.refs t < 254)
    (hjoin : ∀ t ∈ cur, w.own t = .kept ∨ w.own t = .gone) : (w.threadGetNext cur).Inv := by
  have hretain : (w.retainNext (w.nextThread cur)).Inv ∧
      (∀ t ∈ cur, (w.sched.current, t) ∈ (w.retainNext (w.nextThread cur)).held) ∧
      (w.retainNext (w.nextThread cur)).own = w.own ∧
      (w.retainNext (w.nextThread cur)).sched = w.sched := by
    cases hn : w.nextThread cur with
    | none => exact ⟨h, hheld, rfl, rfl⟩
    | some t =>
      refine ⟨h.retain (nextThread_mem hn) (hroom t hn) _, ?_, rfl, rfl⟩
      exact fun u hu => .tail _ (hheld u hu)
  obtain ⟨hinv, hheld', hown, hsched⟩ := hretain
  unfold World.threadGetNext
  cases cur with
  | none => exact hinv
  | some t =>
    refine hinv.release (c := (w.retainNext (w.nextThread (some t))).sched.current) ?_ ?_
    · rw [hsched]
      exact hheld' t rfl
    · rw [hown]
      exact hjoin t rfl

/-! ## Exit -/

/-- The thread takes itself off the list of all threads. -/
def leave (w : World) (t : Nat) : World := { w.setAct t .exited with all := w.all.erase t }

theorem leave_exited (t u : Nat) : (w.leave t).exited u ↔ w.exited u ∨ u = t := by
  by_cases hu : u = t
  all_goals simp [exited, leave, setAct, hu]

theorem leave_view {u : Nat} (hu : u ≠ t) : (w.leave t).view u = w.view u := by
  have hex : (w.leave t).exited u = w.exited u := by simp [leave_exited, hu]
  simp only [view, hex]
  rfl

theorem Inv.leave (h : w.Inv) {own : Nat → Own} {refcount : Nat → Nat} (hidle : t ≠ Sched.idle)
    (hact : w.act t = .user) (hother : ∀ d u, w.joiner u = some d →
      own u = w.own u ∧ refcount u = w.refcount u) :
    { w.leave t with own := own, refcount := refcount }.Frame := by
  refine h.frame hidle (by simp [hact]) (h.nodup.erase t) (fun u => ?_)
    (fun d u _ hj => ⟨hj, hother d u hj⟩) trivial
  have hmem : u ∈ w.all.erase t ↔ u ≠ t ∧ u ∈ w.all := h.nodup.mem_erase_iff
  refine hmem.trans ?_
  by_cases hu : u = t <;> simp [exited, World.setAct, hu, h.all]

theorem threadExit_detached (hdet : (w.sched.task w.sched.current).detached = true)
    (hcount : w.refcount w.sched.current = 1) : w.threadExit = { w.leave w.sched.current with
      own := update w.own w.sched.current .gone
      refcount := update w.refcount w.sched.current 0 }.reap w.sched.current := by
  simp [threadExit, threadRelease, dropRef, reapIfLast, leave, setAct, hdet, hcount]

theorem threadExit_joinable (hdet : (w.sched.task w.sched.current).detached = false) :
    w.threadExit = { w.leave w.sched.current with
      sched := (w.sched.setState w.sched.current .zombie).taskWakeup joinWait true } := by
  simp [threadExit, leave, setAct, hdet]

section

variable (h : w.Inv)
include h

/-- The thread that is about to exit. -/
theorem Inv.caller (hc : w.calls) : (w.view w.sched.current).Live ∧
    (w.sched.task w.sched.current).link = none := by
  obtain ⟨⟨-, hs⟩, hact, hidle⟩ := hc
  exact ⟨h.live (h.current_live hidle) (by simp [exited, hact]),
    h.ok.link_eq_none (by simp [hs]) (by simp [hs])⟩

/-- A thread that is to be joined stays as a zombie. -/
theorem Inv.zombified (hc : w.calls) (hdet : (w.sched.task w.sched.current).detached = false) :
    { w.leave w.sched.current with sched := w.sched.setState w.sched.current .zombie }.Inv := by
  obtain ⟨hlive, hl⟩ := h.caller hc
  obtain ⟨⟨-, hs⟩, hact, hidle⟩ := hc
  have hleave : (w.leave w.sched.current).Frame := h.leave hidle hact fun _ _ _ => ⟨rfl, rfl⟩
  have hown : w.own w.sched.current = .kept := hlive.own
  refine { hleave.setSched (h.ok.setState (by simp [hs]) hl (by simp) (by simp)) rfl rfl
    (by simp [hl]) (fun ht => absurd ht (h.not_until_of_running hs)) with
    good := good_of (t := w.sched.current) (fun u _ => h.good u) (fun u hu => ?_) (.zombie ?_) }
  · refine Eq.trans ?_ (leave_view hu)
    simp only [view, Sched.setState, update_of_ne hu]
    rfl
  · refine { hlive with
      thread := ?_, state := ?_, exited := (leave_exited _ _).mpr (.inr rfl), detached := ?_
      joiner := fun _ => hown, count := ?_, last := fun hg => by cases hown.symm.trans hg }
    · simpa [view, Sched.setState] using hlive.thread
    · simp [view, Sched.setState]
    · simpa [view, Sched.setState] using hdet
    · have hkept : (w.leave w.sched.current).own w.sched.current = .kept := hown
      simp only [view, hkept]
      exact hlive.count

theorem Inv.threadExit (hc : w.calls)
    (hrefs : (w.sched.task w.sched.current).detached = true → w.refs w.sched.current = 0) :
    w.threadExit.Inv := by
  by_cases hdet : (w.sched.task w.sched.current).detached = true
  · obtain ⟨hlive, hl⟩ := h.caller hc
    obtain ⟨⟨-, hs⟩, hact, hidle⟩ := hc
    have hcount : w.refcount w.sched.current = w.refs w.sched.current + 1 := hlive.count
    rw [threadExit_detached hdet (by rw [hcount, hrefs hdet])]
    -- nobody joins a detached thread
    have hframe : Frame { w.leave w.sched.current with
        own := update w.own w.sched.current .gone
        refcount := update w.refcount w.sched.current 0 } := by
      refine h.leave hidle hact fun d u hj => ?_
      have hu : u ≠ w.sched.current := by
        rintro rfl
        cases hdet.symm.trans (hlive.joiner fun hn => by cases hj.symm.trans hn)
      simp [hu]
    refine { hframe.setSched (reap_ok h.ok (by simp [hs]) hl) (reap_task _) rfl
      (by simp [hl]) (fun ht => absurd ht (h.not_until_of_running hs)) with
      good := good_of (t := w.sched.current) (fun u _ => h.good u) (fun u hu => ?_) (.reaped ?_) }
    · refine Eq.trans ?_ (leave_view hu)
      simp only [view, reap_task, update_of_ne hu]
      simp only [reap, update_of_ne hu]
      rfl
    · refine ⟨hlive.kind, by simp [view], (leave_exited _ _).mpr (.inr rfl), update_self .., fun _ => ?_,
        hrefs hdet, update_self .., by simp [view], .inl ⟨by simp [view], hlive.runs, hlive.reclaimed⟩⟩
      simpa [view, World.leave, World.setAct] using hdet
  · rw [Bool.not_eq_true] at hdet
    rw [threadExit_joinable hdet]
    exact (h.zombified hc hdet).taskWakeup joinWait true

/-! ## Join -/

/-- The current thread takes its next step in the join of `t`; all that is said about the other
tasks is as before. -/
theorem Inv.joinStep {a : Activity} {own : Nat → Own} {joiner : Nat → Option Nat}
    {refcount : Nat → Nat} (hidle : w.sched.current ≠ Sched.idle)
    (hact : w.act w.sched.current ≠ .exited) (ha : a ≠ .exited)
    (hsame : ∀ u, u ≠ t → own u = w.own u ∧ joiner u = w.joiner u ∧ refcount u = w.refcount u)
    (hgood : View.Good { w.view t with own := own t, joiner := joiner t, refcount := refcount t })
    (hjoin : ∀ d, d ≠ w.sched.current → w.joiner t ≠ some d)
    (hok : ActOk { w.setAct w.sched.current a with
      own := own, joiner := joiner, refcount := refcount } w.sched.current a) :
    { w.setAct w.sched.current a with
      own := own, joiner := joiner, refcount := refcount }.Inv := by
  have hex := exited_setAct ha hact
  refine { h.frame hidle hact h.nodup (h.all_setAct ha hact) (fun d u hd hj => ?_) hok with
    good := fun u => ?_ }
  · obtain ⟨ho, hj', hr⟩ := hsame u fun hu => hjoin d hd (hu ▸ hj)
    exact ⟨hj'.trans hj, ho, hr⟩
  · have hv : { w.setAct w.sched.current a with
        own := own, joiner := joiner, refcount := refcount }.view u =
        { w.view u with own := own u, joiner := joiner u, refcount := refcount u } :=
      congrArg (fun x => { w.view u with
        exited := x, own := own u, joiner := joiner u, refcount := refcount u }) (congrFun hex u)
    rw [hv]
    by_cases hu : u = t
    · rw [hu]
      exact hgood
    · obtain ⟨ho, hj, hr⟩ := hsame u hu
      rw [ho, hj, hr]
      exact h.good u

theorem Inv.beginJoin (hc : w.calls) (hkind : w.kind t = .thread)
    (hdet : (w.sched.task t).detached = false) (hjoiner : w.joiner t = none) :
    (w.beginJoin t).Inv := by
  obtain ⟨⟨-, hs⟩, hact, hidle⟩ := hc
  have hnew : w.own t = .kept ∧ View.Good { w.view t with joiner := some w.sched.current } := by
    cases h.good t with
    | live hl => exact ⟨hl.own, .live { hl with joiner := fun _ => hdet }⟩
    | zombie hz =>
      exact ⟨hz.joiner hjoiner, .zombie { hz with joiner := fun hn => by cases hn }⟩
    | reaped hr => cases hdet.symm.trans (hr.joiner hjoiner)
    | unused hv | idle hv | task hv | mux hv => cases hv.kind.symm.trans hkind
  refine h.joinStep (t := t) hidle (by simp [hact]) (by simp) ?_ ?_
    (fun d _ hj => by simp [hjoiner] at hj) ?_
  · intro u hu
    simp [hu]
  · simp only [update_self]
    exact hnew.2
  · simpa [ActOk, World.setAct] using hnew.1

/-- A thread that has exited and has not given up its own reference is a zombie. -/
theorem Inv.zombie (hex : w.exited t) (hown : w.own t ≠ .gone) : (w.view t).Zombie := by
  cases h.good t with
  | zombie hz => exact hz
  | unused hv | idle hv | task hv | mux hv | live hv => exact absurd hex hv.exited
  | reaped hv => exact absurd hv.own hown

theorem Inv.current_ne_idle (ha : w.act w.sched.current ≠ .user) :
    w.sched.current ≠ Sched.idle := by
  intro hc
  rw [hc] at ha
  exact ha h.idle_act

/-- The joiner loads the count, -/
theorem Inv.load (ha : w.act w.sched.current = .load t) :
    { w.setAct w.sched.current (.store t (w.refcount t)) with
      own := update w.own t .loaded }.Inv := by
  have hacts := h.acts w.sched.current
  rw [ha] at hacts
  obtain ⟨hj, hown, hex⟩ := hacts
  have hne : t ≠ w.sched.current := fun hc => by simp [exited, hc, ha] at hex
  have hz := h.zombie hex (by simp [hown])
  refine h.joinStep (t := t) (h.current_ne_idle (by simp [ha])) (by simp [ha]) (by simp) ?_ ?_
    (fun d hd hjd => hd (by simpa [hj] using hjd.symm)) ?_
  · intro u hu
    simp [World.setAct, hu]
  · rw [update_self]
    refine .zombie { hz with
      joiner := fun hn => absurd (hj.symm.trans hn) (by simp)
      count := ?_
      last := fun hg => by cases hg }
    simpa [view, World.setAct, hown, Own.counts] using hz.count
  · have hx : w.act t = .exited := hex
    simp [ActOk, World.setAct, exited, hj, hne, hx]

/-- stores it, less one, -/
theorem Inv.store {v : Nat} (ha : w.act w.sched.current = .store t v) :
    { (w.dropRef t v).setAct w.sched.current (.test t) with
      own := update w.own t .dropped }.Inv := by
  have hacts := h.acts w.sched.current
  rw [ha] at hacts
  obtain ⟨hj, hown, hex, rfl⟩ := hacts
  have hne : t ≠ w.sched.current := fun hc => by simp [exited, hc, ha] at hex
  have hz := h.zombie hex (by simp [hown])
  have hcount : w.refcount t = w.refs t + 1 := by simpa [view, hown, Own.counts] using hz.count
  have hbyte : w.refcount t < 256 := hz.byte
  refine h.joinStep (t := t) (h.current_ne_idle (by simp [ha])) (by simp [ha]) (by simp) ?_ ?_
    (fun d hd hjd => hd (by simpa [hj] using hjd.symm)) ?_
  · intro u hu
    simp [dropRef, World.setAct, hu]
  · refine .zombie { hz with
      joiner := fun hn => absurd (hj.symm.trans hn) (by simp)
      count := ?_, byte := ?_
      last := fun hg => by simp at hg }
    all_goals
      simp only [view, dropRef, World.setAct, update_self, Own.counts]
      omega
  · have hx : w.act t = .exited := hex
    simp [ActOk, dropRef, World.setAct, exited, hj, hne, hx]

/-- and tests it. -/
theorem Inv.test (ha : w.act w.sched.current = .test t) :
    ({ w.setAct w.sched.current .user with own := update w.own t .gone }.reapIfLast t).Inv := by
  have hacts := h.acts w.sched.current
  rw [ha] at hacts
  obtain ⟨hj, hown, hex⟩ := hacts
  have hz := h.zombie hex (by simp [hown])
  have hc : w.act w.sched.current ≠ .exited := by simp [ha]
  have hex' : (w.setAct w.sched.current .user).exited = w.exited := exited_setAct (by simp) hc
  have hframe : Frame { w.setAct w.sched.current .user with own := update w.own t .gone } := by
    refine h.frame (h.current_ne_idle (by simp [ha])) hc h.nodup (h.all_setAct (by simp) hc)
      (fun d u hd hjd => ⟨hjd, update_of_ne ?_ _ _, rfl⟩) trivial
    rintro rfl
    exact hd (Option.some.inj (hjd.symm.trans hj))
  refine hframe.settle (fun u hu => ?_) (update_self ..) { hz with
    exited := (congrFun hex' t).mpr hex
    joiner := fun hn => by cases hj.symm.trans hn
    count := ?_, last := fun hg => by cases hg }
  · have hexu : { w.setAct w.sched.current .user with own := update w.own t .gone }.exited u =
        w.exited u := congrFun hex' u
    simp only [view, hexu, update_of_ne hu]
    exact h.good u
  · have hc : w.refcount t = w.refs t := by simpa [view, hown, Own.counts] using hz.count
    exact hc

theorem Inv.cont (hrun : w.executes) (hw : w.cont = some w') : w'.Inv := by
  obtain ⟨-, hs⟩ := hrun
  have hacts := h.acts w.sched.current
  unfold World.cont at hw
  dsimp only at hw
  split at hw
  · cases hw
  · cases hw
  · -- the sleep with a timer is over
    rename_i ha
    cases hw
    have ht := h.setTimer w.sched.current none (by simp)
    exact ht.setAct (by simp) (by simp [ha]) (h.current_ne_idle (by simp [ha])) trivial
  · -- and so is `poll`
    rename_i ms ha
    cases hw
    rw [ha] at hacts
    have ht := (h.unlist ms hacts).setTimer w.sched.current none (by simp)
    exact ht.setAct (by simp) (by simp [ha]) (h.current_ne_idle (by simp [ha])) trivial
  · rename_i t ha
    rw [ha] at hacts
    obtain ⟨hj, hown⟩ := hacts
    split at hw
    · rename_i hz
      cases hw
      have hex : w.exited t := by
        cases h.good t with
        | zombie hv => exact hv.exited
        | unused hv | task hv | mux hv | live hv => simpa [view, hz] using hv.state
        | idle hv => cases hown.symm.trans hv.own
        | reaped hv => exact hv.exited
      exact h.setAct (by simp) (by simp [ha]) (h.current_ne_idle (by simp [ha])) ⟨hj, hown, hex⟩
    · cases hw
      exact h.taskSleep joinWait hs (h.current_ne_idle (by simp [ha])) (by simp [ha])
  · rename_i t ha
    cases hw
    exact h.load ha
  · rename_i t v ha
    cases hw
    exact h.store ha
  · rename_i t ha
    cases hw
    exact h.test ha

end

end World

end Mios.Kernel
