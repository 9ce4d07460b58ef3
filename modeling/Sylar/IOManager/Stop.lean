/-
  Sylar.IOManager.Stop — whether an `IOManager` may stop with work left
  (see `Sylar.IOManager.Machine`).

  A thread may end its idle fiber once it has read, one after the other, no timers, no
  pending events, and the flag set with no task queued or active. Work is safe while some
  thread has yet to make the test that would find it (`Watched`). A thread whose own idle
  fiber is alive watches what its tasks add; the two places where nobody may are a task
  that a thread takes after its idle fiber has ended, and the work already there when
  `stop` sets the flag.

  Proved: when at those two places what is added or there is watched (`Seen`), all
  threads leave `run` only with the queue empty, no timer armed and no event pending
  (`nothing_left`). Without it they may strand a timer (`timer_stranded`).
-/

import Sylar.IOManager.Machine

namespace Sylar.IOMachine

open Scheduler

/-- The idle fiber has yet to read the timers before it can end. -/
def readsTimers (x : Thread IdlePc) : Bool := !x.idleTerm && x.pc != .idle .stop1 && x.pc != .idle .stop2

/-- The idle fiber has yet to read m_pendingEventCount before it can end. -/
def readsPending (x : Thread IdlePc) : Bool := !x.idleTerm && x.pc != .idle .stop2

/-- The thread scans the queue before it can leave. -/
def scans : Pc IdlePc → Bool
  | .noTask | .left | .idle _ => false
  | _ => true

/-- The thread cannot leave with the task queued: its idle fiber is alive, or it scans
    the queue first and may run the task. -/
def takes (x : Thread IdlePc) (t : Tid) (e : Entry) : Bool := !x.idleTerm || (scans x.pc && e.eligible t)

structure Watched (c : Config) (s : IOState) : Prop where
  timers : s.ext.m_timers ≠ [] → ∃ t ∈ c.threads, readsTimers (s.th t) = true
  pending : s.ext.m_pendingEventCount ≠ 0 → ∃ t ∈ c.threads, readsPending (s.th t) = true
  tasks : ∀ e ∈ s.m_tasks, ∃ t ∈ c.threads, takes (s.th t) t e = true

/-- What a step adds where the adding thread does not watch it itself, or finds when it
    sets the flag, is watched. -/
def Seen (c : Config) (s : IOState) : Act → Prop
  | .addTimer t _ _ => (s.th t).idleTerm = true → ∃ u ∈ c.threads, readsTimers (s.th u) = true
  | .addEvent t _ => (s.th t).idleTerm = true → ∃ u ∈ c.threads, readsPending (s.th u) = true
  | .run (.schedule t task) => (s.th t).idleTerm = true → ∀ u, task.m_threadId = some u → u ≠ t →
      ∃ v ∈ c.threads, takes (s.th v) v ⟨task, s.submitted⟩ = true
  | .run (.stop _) => (s.ext.m_timers ≠ [] → ∃ u ∈ c.threads, readsTimers (s.th u) = true) ∧
      (s.ext.m_pendingEventCount ≠ 0 → ∃ u ∈ c.threads, readsPending (s.th u) = true)
  | _ => True

/-! ## What keeps work watched -/

/-- One thread changes, and nothing is added. -/
theorem Watched.set {c : Config} {s s' : IOState} (h : Watched c s) {t : Tid} {y : Thread IdlePc}
    (hth : s'.th = (s.set t y).th) (ht : s.ext.m_timers = [] → s'.ext.m_timers = [])
    (hp : s.ext.m_pendingEventCount = 0 → s'.ext.m_pendingEventCount = 0) (hq : ∀ e ∈ s'.m_tasks, e ∈ s.m_tasks)
    (hR : s'.ext.m_timers ≠ [] → readsTimers (s.th t) = true → readsTimers y = true)
    (hP : s'.ext.m_pendingEventCount ≠ 0 → readsPending (s.th t) = true → readsPending y = true)
    (hT : ∀ e ∈ s'.m_tasks, takes (s.th t) t e = true → takes y t e = true) : Watched c s' := by
  refine ⟨?_, ?_, ?_⟩
  · intro hne
    obtain ⟨u, hu, hr⟩ := h.timers fun h0 => hne (ht h0)
    refine ⟨u, hu, ?_⟩
    rw [hth]
    exact set_keeps (fun _ x => readsTimers x = true) hr (hR hne)
  · intro hne
    obtain ⟨u, hu, hr⟩ := h.pending fun h0 => hne (hp h0)
    refine ⟨u, hu, ?_⟩
    rw [hth]
    exact set_keeps (fun _ x => readsPending x = true) hr (hP hne)
  · intro e he
    obtain ⟨u, hu, hr⟩ := h.tasks e (hq e he)
    refine ⟨u, hu, ?_⟩
    rw [hth]
    exact set_keeps (fun v x => takes x v e = true) hr (hT e he)

/-- A thread moves on, short of the second test, without passing a scan. -/
theorem Watched.move {c : Config} {s s' : IOState} (h : Watched c s) {t : Tid} {y : Thread IdlePc}
    (hth : s'.th = (s.set t y).th) (ht : s.ext.m_timers = [] → s'.ext.m_timers = [])
    (hp : s.ext.m_pendingEventCount = 0 → s'.ext.m_pendingEventCount = 0) (hq : ∀ e ∈ s'.m_tasks, e ∈ s.m_tasks)
    (hterm : y.idleTerm = (s.th t).idleTerm) (h1 : y.pc ≠ .idle .stop1) (h2 : y.pc ≠ .idle .stop2)
    (hscan : (s.th t).idleTerm = false ∨ (scans (s.th t).pc = true → scans y.pc = true)) : Watched c s' := by
  apply h.set hth ht hp hq
  · intro _ hr
    simp only [readsTimers, Bool.and_eq_true] at hr ⊢
    exact ⟨⟨hterm ▸ hr.1.1, by simpa using h1⟩, by simpa using h2⟩
  · intro _ hr
    simp only [readsPending, Bool.and_eq_true] at hr ⊢
    exact ⟨hterm ▸ hr.1, by simpa using h2⟩
  · intro e _ hr
    simp only [takes, Bool.or_eq_true, Bool.and_eq_true, hterm] at hr ⊢
    rcases hscan with h | h
    · exact .inl (by simp [h])
    · exact hr.imp id fun ⟨h1, h2⟩ => ⟨h h1, h2⟩

theorem Watched.goto {c : Config} {s : IOState} (h : Watched c s) {t : Tid} {pc : Pc IdlePc}
    (h1 : pc ≠ .idle .stop1) (h2 : pc ≠ .idle .stop2)
    (hscan : (s.th t).idleTerm = false ∨ (scans (s.th t).pc = true → scans pc = true)) : Watched c (s.goto t pc) :=
  h.move rfl id id (fun _ => id) rfl h1 h2 hscan

theorem Watched.tickles {c : Config} {s : IOState} (h : Watched c s) (t : Tid) (k : Tickle) :
    Watched c (s.tickles t k) :=
  h.set rfl id id (fun _ => id) (fun _ => id) (fun _ => id) fun _ _ => id

theorem Watched.withExt {c : Config} {s : IOState} (h : Watched c s) {ext : Ext}
    (ht : s.ext.m_timers = [] → ext.m_timers = [])
    (hp : s.ext.m_pendingEventCount = 0 → ext.m_pendingEventCount = 0) : Watched c (s.withExt ext) :=
  ⟨fun hne => h.timers fun h0 => hne (ht h0), fun hne => h.pending fun h0 => hne (hp h0), h.tasks⟩

/-- A task is added that some thread cannot leave behind. -/
theorem Watched.schedule {c : Config} {s : IOState} (h : Watched c s) (t : Tid) {task : ScheduleTask}
    (he : ∃ v ∈ c.threads, takes (s.th v) v ⟨task, s.submitted⟩ = true) : Watched c (s.schedule t task) := by
  have hR (u : Tid) : readsTimers ((s.schedule t task).th u) = readsTimers (s.th u) := by
    unfold readsTimers; rw [schedule_pc, schedule_idleTerm]
  have hP (u : Tid) : readsPending ((s.schedule t task).th u) = readsPending (s.th u) := by
    unfold readsPending; rw [schedule_pc, schedule_idleTerm]
  have hT (u : Tid) (e : Entry) : takes ((s.schedule t task).th u) u e = takes (s.th u) u e := by
    unfold takes; rw [schedule_pc, schedule_idleTerm]
  refine ⟨?_, ?_, ?_⟩
  · intro hne
    rw [schedule_ext] at hne; simp only [hR]; exact h.timers hne
  · intro hne
    rw [schedule_ext] at hne; simp only [hP]; exact h.pending hne
  · intro e hm
    simp only [hT]
    rw [schedule_m_tasks] at hm
    split at hm
    · rcases List.mem_append.mp hm with hm | hm
      · exact h.tasks e hm
      · rw [List.mem_singleton] at hm; subst hm; exact he
    · exact h.tasks e hm

/-! ## Each step -/

theorem takes_alive {x : Thread IdlePc} (h : x.idleTerm = false) (t : Tid) (e : Entry) : takes x t e = true := by
  simp [takes, h]

/-- After `stop` only tasks add work. -/
theorem user_slice {c : Config} (hl : c.late = false) {s : IOState} (hs : s.m_stopping = true) {t : Tid}
    (h : s.User c t) : ∃ x, s.At t (.slice x) := by
  rcases h with h | ⟨-, h⟩
  · exact h
  · rw [hl, hs] at h; simp at h

/-- A task schedules another: the thread watches it, unless it has ended and the task is
    for another thread. -/
theorem watched_user_schedule {c : Config} {s : IOState} (hi : Inv c s) (hw : Watched c s) {t : Tid}
    {task : ScheduleTask} (hu : ∃ x, s.At t (.slice x)) (hg : Seen c s (.run (.schedule t task))) :
    Watched c (s.schedule t task) := by
  obtain ⟨x, hx, -⟩ := hu
  have ht : t ∈ c.threads := hi.run.members t (by rw [hx]; simp)
  have hself (he : task.eligible t = true) : takes (s.th t) t ⟨task, s.submitted⟩ = true := by
    simp [takes, hx, scans, Entry.eligible, he]
  apply hw.schedule t
  cases hterm : (s.th t).idleTerm with
  | false => exact ⟨t, ht, takes_alive hterm _ _⟩
  | true =>
    cases hth : task.m_threadId with
    | none => exact ⟨t, ht, hself (ScheduleTask.eligible_unpinned hth t)⟩
    | some u =>
      by_cases hut : u = t
      · exact ⟨t, ht, hself (ScheduleTask.eligible_iff.mpr (.inr (hut ▸ hth)))⟩
      · exact hg hterm u hth hut

theorem watched_run {c : Config} (hl : c.late = false) {s s' : IOState} (hi : Inv c s) (hs : s.m_stopping = true)
    (hw : Watched c s) {a : RunAct} (hg : Seen c s (.run a)) (h : RunStep c .top s a s') : Watched c s' := by
  cases h with
  | enter hat _ _ => exact hw.goto (by simp) (by simp) (.inr fun _ => rfl)
  | @dequeue t hat =>
    rcases dequeue_cases s t with ⟨x, pre, post, k, hq, -, -, -, hd⟩ | ⟨k, hno, hd⟩
    · rw [hd]
      refine hw.move rfl id id ?_ rfl (by simp) (by simp) (.inr fun _ => rfl)
      intro e he
      rw [hq]
      exact (List.mem_append.mp he).elim (List.mem_append_left _) fun h =>
        List.mem_append_right _ (List.mem_cons_of_mem _ h)
    · -- nothing in the queue is for this thread
      rw [hd]
      apply hw.set rfl id id (fun _ => id)
      · intro _ hr
        simpa [readsTimers, hat.1] using hr
      · intro _ hr
        simpa [readsPending, hat.1] using hr
      · intro e he hr
        simpa [takes, hno e he] using hr
  | resume hat => exact hw.move rfl id id (fun _ => id) rfl (by simp) (by simp) (.inr fun _ => rfl)
  | finish hat => exact hw.goto (by simp) (by simp) (.inr fun _ => rfl)
  | decr hat => exact hw.move rfl id id (fun _ => id) rfl (by simp) (by simp) (.inr fun _ => rfl)
  | leave hat _ => exact hw.goto (by simp) (by simp) (.inr fun h => by rw [hat.1] at h; cases h)
  | goIdle hat ht => exact hw.move rfl id id (fun _ => id) rfl (by simp) (by simp) (.inl ht)
  | back hat => exact hw.move rfl id id (fun _ => id) rfl (by simp) (by simp) (.inr fun _ => rfl)
  | schedule task hu => exact watched_user_schedule hi hw (user_slice hl hs hu) hg
  | stop _ => exact ⟨hw.timers, hw.pending, hw.tasks⟩
  | stopTickle _ _ => exact hw.tickles _ _

/-- The first `stop`: no idle fiber has ended, so every queued task is watched. -/
theorem watched_stop {c : Config} {s s' : IOState} (hi : Inv c s) (hs : s.m_stopping = false) {a : RunAct}
    (hg : Seen c s (.run a)) (h : RunStep c .top s a s') (hs' : s'.m_stopping = true) : Watched c s' := by
  cases h with
  | stop _ =>
    refine ⟨hg.1, hg.2, ?_⟩
    intro e _
    obtain ⟨t, ht⟩ := c.nonempty
    refine ⟨t, ht, takes_alive ?_ t e⟩
    by_contra hterm
    have := hi.term t (by simpa using hterm)
    rw [hs] at this; cases this
  | @dequeue t hat =>
    rcases dequeue_cases s t with ⟨x, pre, post, k, -, -, -, -, hd⟩ | ⟨k, -, hd⟩ <;> rw [hd] at hs' <;>
      exact absurd (hs.symm.trans hs') (by simp)
  | schedule task _ => rw [schedule_m_stopping, hs] at hs'; cases hs'
  | _ => exact absurd (hs.symm.trans hs') (by simp)

theorem step_watched {c : Config} (hl : c.late = false) {s s' : IOState} {a : Act} (hi : Inv c s)
    (hw : s.m_stopping = true → Watched c s) (hg : Seen c s a) (h : Step c s a s') (hs' : s'.m_stopping = true) :
    Watched c s' := by
  have alive {t : Tid} {i : IdlePc} (hat : s.At t (.idle i)) : (s.th t).idleTerm = false := hi.alive t i hat.1
  have member {t : Tid} {i : IdlePc} (hat : s.At t (.idle i)) : t ∈ c.threads := hi.run.members t (by rw [hat.1]; simp)
  cases h with
  | run h =>
    by_cases hs : s.m_stopping = true
    · exact watched_run hl hi hs (hw hs) hg h
    · exact watched_stop hi (by simpa using hs) hg h hs'
  | tickle _ => exact (hw hs').tickles _ _
  | write _ => exact ((hw hs').tickles _ _).withExt id id
  | @addTimer t timer atFront hu =>
    have hs : s.m_stopping = true := by cases atFront <;> exact hs'
    obtain ⟨x, hx, -⟩ := user_slice hl hs hu
    have hR : ∃ u ∈ c.threads, readsTimers (s.th u) = true := by
      cases hterm : (s.th t).idleTerm with
      | true => exact hg hterm
      | false => exact ⟨t, hi.run.members t (by rw [hx]; simp), by simp [readsTimers, hterm, hx]⟩
    have key : Watched c (s.withExt { s.ext with m_timers := s.ext.m_timers ++ [timer] }) :=
      ⟨fun _ => hR, (hw hs).pending, (hw hs).tasks⟩
    cases atFront with
    | true => exact key.tickles t .check
    | false => exact key
  | cancelTimer timer _ => exact (hw hs').withExt (fun h => by simp [h]) id
  | @addEvent t task hu =>
    have hs : s.m_stopping = true := hs'
    obtain ⟨x, hx, -⟩ := user_slice hl hs hu
    have hP : ∃ u ∈ c.threads, readsPending (s.th u) = true := by
      cases hterm : (s.th t).idleTerm with
      | true => exact hg hterm
      | false => exact ⟨t, hi.run.members t (by rw [hx]; simp), by simp [readsPending, hterm, hx]⟩
    exact ⟨(hw hs).timers, fun _ => hP, (hw hs).tasks⟩
  | delEvent task _ _ => exact (hw hs').withExt id fun h => by simp [h]
  | @stopping t hat =>
    by_cases h0 : s.ext.m_timers = []
    · rw [if_pos h0]
      refine (hw hs').set rfl id id (fun _ => id) (fun hne _ => absurd h0 hne) ?_ ?_
      · intro _ hr
        simpa [readsPending, hat.1] using hr
      · intro e _ _
        exact takes_alive (x := { s.th t with pc := .idle .stop1 }) (alive hat) t e
    · rw [if_neg h0]; exact (hw hs').goto (by simp) (by simp) (.inl (alive hat))
  | @stopping1 t hat =>
    by_cases h0 : s.ext.m_pendingEventCount = 0
    · rw [if_pos h0]
      refine (hw hs').set rfl id id (fun _ => id) ?_ (fun hne _ => absurd h0 hne) ?_
      · intro _ hr
        simp [readsTimers, hat.1] at hr
      · intro e _ _
        exact takes_alive (x := { s.th t with pc := .idle .stop2 }) (alive hat) t e
    · rw [if_neg h0]; exact (hw hs').goto (by simp) (by simp) (.inl (alive hat))
  | @stopping2 t hat =>
    split
    · -- the queue is empty, and the thread had passed both tests before
      rename_i hstop
      rw [if_pos hstop] at hs'
      simp only [Scheduler.stopping, Bool.and_eq_true, List.isEmpty_iff] at hstop
      apply (hw hs').set rfl id id (fun _ => id)
      · intro _ hr
        simp [readsTimers, hat.1] at hr
      · intro _ hr
        simp [readsPending, hat.1] at hr
      · intro e he _
        rw [show ∀ y, (s.set t y).m_tasks = s.m_tasks from fun _ => rfl, hstop.1.2] at he; cases he
    · rename_i hstop
      rw [if_neg hstop] at hs'
      exact (hw hs').goto (by simp) (by simp) (.inl (alive hat))
  | wake hat => exact (hw hs').goto (by simp) (by simp) (.inl (alive hat))
  | expire expired hat =>
    refine ((hw hs').goto (by simp) (by simp) (.inl (alive hat))).withExt ?_ id
    intro h
    have h0 : s.ext.m_timers = [] := h
    simp [stillArmed, h0]
  | @hand t cb cbs hat =>
    rw [schedule_m_stopping] at hs'
    refine ((hw hs').goto (by simp) (by simp) (.inl (alive hat))).schedule _ ⟨t, member hat, takes_alive ?_ _ _⟩
    simp [State.goto, alive hat]
  | handed hat => exact (hw hs').goto (by simp) (by simp) (.inl (alive hat))
  | drain _ => exact (hw hs').withExt id id
  | @trigger t task hat _ =>
    rw [schedule_m_stopping] at hs'
    have hw' : Watched c (s.goto t (.idle .triggered)) := (hw hs').goto (by simp) (by simp) (.inl (alive hat))
    have key : Watched c ((s.goto t (.idle .triggered)).withExt
        { s.ext with events := s.ext.events.erase task }) := hw'.withExt id id
    refine key.schedule _ ⟨t, member hat, takes_alive ?_ _ _⟩
    simp [State.goto, State.withExt, alive hat]
  | @decr t hat =>
    have hw' : Watched c (s.goto t (.idle .events)) := (hw hs').goto (by simp) (by simp) (.inl (alive hat))
    refine hw'.withExt id ?_
    intro h
    have h0 : s.ext.m_pendingEventCount = 0 := h
    show s.ext.m_pendingEventCount - 1 = 0
    rw [h0]
  | yield hat => exact (hw hs').goto (by simp) (by simp) (.inl (alive hat))

/-- In every run whose steps are all `Seen`, when all threads have left nothing is left:
    no task, no timer, no event. -/
theorem nothing_left {c : Config} (hl : c.late = false) {s : IOState}
    (h : Lts.Reach Start (Lts.guarded (Step c) (Seen c)) s) (hleft : ∀ t ∈ c.threads, (s.th t).pc = .left) :
    s.m_tasks = [] ∧ s.ext.m_timers = [] ∧ s.ext.m_pendingEventCount = 0 := by
  have hinv : Inv c s ∧ (s.m_stopping = true → Watched c s) :=
    h.inv (I := fun s => Inv c s ∧ (s.m_stopping = true → Watched c s))
      (fun s h0 => ⟨start_inv h0, fun hs => by rw [h0.run.m_stopping] at hs; cases hs⟩)
      fun s a s' hi ⟨hg, hst⟩ => ⟨step_inv hi.1 hst, step_watched hl hi.1 hi.2 hg hst⟩
  obtain ⟨hi, hw⟩ := hinv
  have hend (t : Tid) (ht : t ∈ c.threads) : (s.th t).idleTerm = true := hi.left t (hleft t ht)
  obtain ⟨t₀, ht₀⟩ := c.nonempty
  have hw := hw (hi.term t₀ (hend t₀ ht₀))
  refine ⟨List.eq_nil_iff_forall_not_mem.mpr ?_, ?_, ?_⟩
  · intro e he
    obtain ⟨t, ht, hr⟩ := hw.tasks e he
    simp [takes, hend t ht, hleft t ht, scans] at hr
  · by_contra hne
    obtain ⟨t, ht, hr⟩ := hw.timers hne
    simp [readsTimers, hend t ht] at hr
  · by_contra hne
    obtain ⟨t, ht, hr⟩ := hw.pending hne
    simp [readsPending, hend t ht] at hr

/-! ## Runs -/

/-- A timer and an event are there when thread 9 stops the scheduler. Thread 1 hands in the
    callbacks of both; each thread runs one of them, finds nothing more and leaves. -/
theorem twoThreads_run : ∃ s, Lts.Reach Start (Lts.guarded (Step twoThreads) (Seen twoThreads)) s ∧
    (∀ t ∈ twoThreads.threads, (s.th t).pc = .left) ∧ s.started.map (fun x => (x.1.task, x.2)) =
      [(.ofCb 7 none, 1), (.ofCb 8 none, 2)] := by
  have h0 : Lts.Reach Start (Lts.guarded (Step twoThreads) (Seen twoThreads)) _ := .init empty_start
  have h1 := h0.stepIf (.addTimer (t := 9) ⟨7, false⟩ false (.inr ⟨⟨rfl, rfl⟩, .inr rfl⟩)) fun h => by cases h
  have h2 := h1.stepIf (.addEvent (t := 9) (.ofCb 8 none) (.inr ⟨⟨rfl, rfl⟩, .inr rfl⟩)) fun h => by cases h
  have h3 := h2.stepIf (.run (.enter (t := 1) ⟨rfl, rfl⟩ (by simp [twoThreads]) (by simp [twoThreads]))) trivial
  have h4 := h3.stepIf (.run (.dequeue (t := 1) ⟨rfl, rfl⟩)) trivial
  have h5 := h4.stepIf (.run (.goIdle (t := 1) ⟨rfl, rfl⟩ rfl)) trivial
  have h6 := h5.stepIf (.run (.stop (t := 9) ⟨rfl, rfl⟩))
    ⟨fun _ => ⟨1, by simp [twoThreads], rfl⟩, fun _ => ⟨1, by simp [twoThreads], rfl⟩⟩
  have h7 := h6.stepIf (.run (.enter (t := 2) ⟨rfl, rfl⟩ (by simp [twoThreads]) (by simp [twoThreads]))) trivial
  have h8 := h7.stepIf (.run (.dequeue (t := 2) ⟨rfl, rfl⟩)) trivial
  have h9 := h8.stepIf (.run (.goIdle (t := 2) ⟨rfl, rfl⟩ rfl)) trivial
  have h10 := h9.stepIf (.stopping (t := 2) ⟨rfl, rfl⟩) trivial
  have h11 := h10.stepIf (.stopping (t := 1) ⟨rfl, rfl⟩) trivial
  -- Thread 1 comes out of epoll_wait and queues both callbacks, then takes the timer's.
  have h12 := h11.stepIf (.wake (t := 1) ⟨rfl, rfl⟩) trivial
  have h13 := h12.stepIf (.expire (t := 1) (fun _ => true) ⟨rfl, rfl⟩) trivial
  have h14 := h13.stepIf (.hand (t := 1) ⟨rfl, rfl⟩) trivial
  have h15 := h14.stepIf (.tickle (t := 1) rfl) trivial
  have h16 := h15.stepIf (.write (t := 1) rfl) trivial
  have h17 := h16.stepIf (.handed (t := 1) ⟨rfl, rfl⟩) trivial
  have h18 := h17.stepIf (.trigger (t := 1) (.ofCb 8 none) ⟨rfl, rfl⟩ (.head _)) trivial
  have h19 := h18.stepIf (.decr (t := 1) ⟨rfl, rfl⟩) trivial
  have h20 := h19.stepIf (.yield (t := 1) ⟨rfl, rfl⟩) trivial
  have h21 := h20.stepIf (.run (.back (t := 1) ⟨rfl, rfl⟩)) trivial
  have h22 := h21.stepIf (.run (.dequeue (t := 1) ⟨rfl, rfl⟩)) trivial
  have h23 := h22.stepIf (.tickle (t := 1) rfl) trivial
  have h24 := h23.stepIf (.write (t := 1) rfl) trivial
  have h25 := h24.stepIf (.run (.resume (t := 1) ⟨rfl, rfl⟩)) trivial
  -- Thread 2, woken by the tickle, reads the pipe and takes the other.
  have h26 := h25.stepIf (.wake (t := 2) ⟨rfl, rfl⟩) trivial
  have h27 := h26.stepIf (.expire (t := 2) (fun _ => true) ⟨rfl, rfl⟩) trivial
  have h28 := h27.stepIf (.handed (t := 2) ⟨rfl, rfl⟩) trivial
  have h29 := h28.stepIf (.drain (t := 2) ⟨rfl, rfl⟩) trivial
  have h30 := h29.stepIf (.yield (t := 2) ⟨rfl, rfl⟩) trivial
  have h31 := h30.stepIf (.run (.back (t := 2) ⟨rfl, rfl⟩)) trivial
  have h32 := h31.stepIf (.run (.dequeue (t := 2) ⟨rfl, rfl⟩)) trivial
  have h33 := h32.stepIf (.run (.resume (t := 2) ⟨rfl, rfl⟩)) trivial
  -- Both end, and each thread goes idle once more, finds nothing and leaves.
  have h34 := h33.stepIf (.run (.finish (t := 1) ⟨rfl, rfl⟩)) trivial
  have h35 := h34.stepIf (.run (.decr (t := 1) ⟨rfl, rfl⟩)) trivial
  have h36 := h35.stepIf (.run (.finish (t := 2) ⟨rfl, rfl⟩)) trivial
  have h37 := h36.stepIf (.run (.decr (t := 2) ⟨rfl, rfl⟩)) trivial
  have h38 := h37.stepIf (.run (.dequeue (t := 1) ⟨rfl, rfl⟩)) trivial
  have h39 := h38.stepIf (.run (.goIdle (t := 1) ⟨rfl, rfl⟩ rfl)) trivial
  have h40 := h39.stepIf (.stopping (t := 1) ⟨rfl, rfl⟩) trivial
  have h41 := h40.stepIf (.stopping1 (t := 1) ⟨rfl, rfl⟩) trivial
  have h42 := h41.stepIf (.stopping2 (t := 1) ⟨rfl, rfl⟩) trivial
  have h43 := h42.stepIf (.run (.back (t := 1) ⟨rfl, rfl⟩)) trivial
  have h44 := h43.stepIf (.run (.dequeue (t := 1) ⟨rfl, rfl⟩)) trivial
  have h45 := h44.stepIf (.run (.leave (t := 1) ⟨rfl, rfl⟩ rfl)) trivial
  have h46 := h45.stepIf (.run (.dequeue (t := 2) ⟨rfl, rfl⟩)) trivial
  have h47 := h46.stepIf (.run (.goIdle (t := 2) ⟨rfl, rfl⟩ rfl)) trivial
  have h48 := h47.stepIf (.stopping (t := 2) ⟨rfl, rfl⟩) trivial
  have h49 := h48.stepIf (.stopping1 (t := 2) ⟨rfl, rfl⟩) trivial
  have h50 := h49.stepIf (.stopping2 (t := 2) ⟨rfl, rfl⟩) trivial
  have h51 := h50.stepIf (.run (.back (t := 2) ⟨rfl, rfl⟩)) trivial
  have h52 := h51.stepIf (.run (.dequeue (t := 2) ⟨rfl, rfl⟩)) trivial
  have h53 := h52.stepIf (.run (.leave (t := 2) ⟨rfl, rfl⟩ rfl)) trivial
  refine ⟨_, h53, ?_, rfl⟩
  intro t ht
  rw [twoThreads, Finset.mem_insert, Finset.mem_singleton] at ht
  rcases ht with rfl | rfl <;> rfl

theorem nothing_left_twoThreads : ∃ s : IOState, (∀ t ∈ twoThreads.threads, (s.th t).pc = .left) ∧
    s.started.map (fun x => (x.1.task, x.2)) = [(.ofCb 7 none, 1), (.ofCb 8 none, 2)] ∧
    s.m_tasks = [] ∧ s.ext.m_timers = [] ∧ s.ext.m_pendingEventCount = 0 := by
  obtain ⟨s, hr, hleft, hstarted⟩ := twoThreads_run
  exact ⟨s, hleft, hstarted, nothing_left rfl hr hleft⟩

/-- Thread 1 pops a timer's callback; thread 2 finds no timer, event, task or active
    thread and ends its idle fiber; thread 1 schedules the callback, thread 2 runs it.
    Thread 1 reads no timer and no event; the callback arms a timer and thread 2 leaves;
    thread 1 finds no task and no active thread, ends and leaves. -/
theorem timer_stranded : ∃ s, Reach twoThreads s ∧ (∀ t ∈ twoThreads.threads, (s.th t).pc = .left) ∧
    s.ext.m_timers = [⟨8, false⟩] := by
  have h0 : Reach twoThreads _ := .init empty_start
  have h1 := h0.step _ (.addTimer (t := 9) ⟨7, false⟩ false (.inr ⟨⟨rfl, rfl⟩, .inr rfl⟩))
  have h2 := h1.step _ (.run (.enter (t := 1) ⟨rfl, rfl⟩ (by simp [twoThreads]) (by simp [twoThreads])))
  have h3 := h2.step _ (.run (.dequeue (t := 1) ⟨rfl, rfl⟩))
  have h4 := h3.step _ (.run (.goIdle (t := 1) ⟨rfl, rfl⟩ rfl))
  have h5 := h4.step _ (.stopping (t := 1) ⟨rfl, rfl⟩)
  have h6 := h5.step _ (.run (.enter (t := 2) ⟨rfl, rfl⟩ (by simp [twoThreads]) (by simp [twoThreads])))
  have h7 := h6.step _ (.run (.dequeue (t := 2) ⟨rfl, rfl⟩))
  have h8 := h7.step _ (.run (.goIdle (t := 2) ⟨rfl, rfl⟩ rfl))
  have h9 := h8.step _ (.run (.stop (t := 9) ⟨rfl, rfl⟩))
  have h10 := h9.step _ (.wake (t := 1) ⟨rfl, rfl⟩)
  have h11 := h10.step _ (.expire (t := 1) (fun _ => true) ⟨rfl, rfl⟩)
  have h12 := h11.step _ (.stopping (t := 2) ⟨rfl, rfl⟩)
  have h13 := h12.step _ (.stopping1 (t := 2) ⟨rfl, rfl⟩)
  have h14 := h13.step _ (.stopping2 (t := 2) ⟨rfl, rfl⟩)
  have h15 := h14.step _ (.hand (t := 1) ⟨rfl, rfl⟩)
  have h16 := h15.step _ (.tickle (t := 1) rfl)
  have h17 := h16.step _ (.write (t := 1) rfl)
  have h18 := h17.step _ (.handed (t := 1) ⟨rfl, rfl⟩)
  have h19 := h18.step _ (.yield (t := 1) ⟨rfl, rfl⟩)
  have h20 := h19.step _ (.run (.back (t := 2) ⟨rfl, rfl⟩))
  have h21 := h20.step _ (.run (.dequeue (t := 2) ⟨rfl, rfl⟩))
  have h22 := h21.step _ (.run (.resume (t := 2) ⟨rfl, rfl⟩))
  have h23 := h22.step _ (.run (.back (t := 1) ⟨rfl, rfl⟩))
  have h24 := h23.step _ (.run (.dequeue (t := 1) ⟨rfl, rfl⟩))
  have h25 := h24.step _ (.run (.goIdle (t := 1) ⟨rfl, rfl⟩ rfl))
  have h26 := h25.step _ (.stopping (t := 1) ⟨rfl, rfl⟩)
  have h27 := h26.step _ (.stopping1 (t := 1) ⟨rfl, rfl⟩)
  have h28 := h27.step _ (.addTimer (t := 2) ⟨8, false⟩ true (.inl ⟨_, rfl, rfl⟩))
  have h29 := h28.step _ (.tickle (t := 2) rfl)
  have h30 := h29.step _ (.write (t := 2) rfl)
  have h31 := h30.step _ (.run (.finish (t := 2) ⟨rfl, rfl⟩))
  have h32 := h31.step _ (.run (.decr (t := 2) ⟨rfl, rfl⟩))
  have h33 := h32.step _ (.run (.dequeue (t := 2) ⟨rfl, rfl⟩))
  have h34 := h33.step _ (.run (.leave (t := 2) ⟨rfl, rfl⟩ rfl))
  have h35 := h34.step _ (.stopping2 (t := 1) ⟨rfl, rfl⟩)
  have h36 := h35.step _ (.run (.back (t := 1) ⟨rfl, rfl⟩))
  have h37 := h36.step _ (.run (.dequeue (t := 1) ⟨rfl, rfl⟩))
  have h38 := h37.step _ (.run (.leave (t := 1) ⟨rfl, rfl⟩ rfl))
  refine ⟨_, h38, ?_, rfl⟩
  intro t ht
  rw [twoThreads, Finset.mem_insert, Finset.mem_singleton] at ht
  rcases ht with rfl | rfl <;> rfl

end Sylar.IOMachine
