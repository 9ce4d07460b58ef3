/-
  Sylar.IOManager.Machine — the threads of an `IOManager`: `Scheduler::run` with
  IOManager's `tickle`, `stopping` and `idle` (sylar/iomanager.cpp lines 301-424) and what
  user code may add.

  `stopping` reads the timers, then m_pendingEventCount, then (under the queue's lock) the
  flag, the queue and the active count: three steps (`top`, `stop1`, `stop2`), each of
  which may send the thread to epoll_wait. epoll_wait may return at any time: its timeout
  is at most MAX_TIMEOUT. Any of the timers may then have expired; the popped callbacks
  are the thread's own (`hand`) until it schedules them one by one. Of the events it may
  then handle any number, draining the tickle pipe or not (see `Sylar.IOManager.Idle`).
  `events` are the registrations, each with the task `triggerEvent` schedules for it; the
  count is lowered in a later step.
-/

import Sylar.Lib.Lts
import Sylar.Scheduler.Run

namespace Sylar.IOMachine

open Scheduler

/-- The next thing the idle fiber does. -/
inductive IdlePc where
  | top
  | stop1
  | stop2
  | wait
  | expire
  | hand (cbs : List CbId)
  | events
  | triggered
  deriving DecidableEq, Repr

structure Timer where
  cb : CbId
  recurring : Bool
  deriving DecidableEq, Repr

structure Ext where
  m_timers : List Timer
  events : List ScheduleTask
  m_pendingEventCount : Nat
  pipe : Nat

abbrev IOState := State IdlePc Ext

inductive Act where
  | run (a : RunAct)
  | tickle (t : Tid)
  | write (t : Tid)
  | addTimer (t : Tid) (timer : Timer) (atFront : Bool)
  | cancelTimer (t : Tid) (timer : Timer)
  | addEvent (t : Tid) (task : ScheduleTask)
  | delEvent (t : Tid) (task : ScheduleTask)
  | stopping (t : Tid)
  | wake (t : Tid)
  | expire (t : Tid) (expired : Timer → Bool)
  | hand (t : Tid)
  | drain (t : Tid)
  | trigger (t : Tid) (task : ScheduleTask)
  | decr (t : Tid)
  | yield (t : Tid)

/-- What `listExpiredCb` leaves armed: the timers that have not expired, and the
    recurring ones. -/
def stillArmed (expired : Timer → Bool) (timers : List Timer) : List Timer :=
  timers.filter fun x => !expired x || x.recurring

inductive Step (c : Config) : IOState → Act → IOState → Prop
  | run {s s' : IOState} {a : RunAct} : RunStep c .top s a s' → Step c s (.run a) s'
  /-- `if (!hasIdleThreads()) return`. -/
  | tickle {s : IOState} {t : Tid} : (s.th t).tickle = .check →
      Step c s (.tickle t) (s.tickles t (if 0 < s.m_idleThreadCount then .write else .no))
  | write {s : IOState} {t : Tid} : (s.th t).tickle = .write →
      Step c s (.write t) ((s.tickles t .no).withExt { s.ext with pipe := s.ext.pipe + 1 })
  /-- `onTimerInsertedAtFront` tickles. -/
  | addTimer {s : IOState} {t : Tid} (timer : Timer) (atFront : Bool) : s.User c t →
      Step c s (.addTimer t timer atFront)
        ((if atFront then s.tickles t .check else s).withExt { s.ext with m_timers := s.ext.m_timers ++ [timer] })
  | cancelTimer {s : IOState} {t : Tid} (timer : Timer) : s.User c t →
      Step c s (.cancelTimer t timer) (s.withExt { s.ext with m_timers := s.ext.m_timers.erase timer })
  | addEvent {s : IOState} {t : Tid} (task : ScheduleTask) : s.User c t →
      Step c s (.addEvent t task) (s.withExt { s.ext with
        events := s.ext.events ++ [task], m_pendingEventCount := s.ext.m_pendingEventCount + 1 })
  | delEvent {s : IOState} {t : Tid} (task : ScheduleTask) : s.User c t → task ∈ s.ext.events →
      Step c s (.delEvent t task) (s.withExt { s.ext with
        events := s.ext.events.erase task, m_pendingEventCount := s.ext.m_pendingEventCount - 1 })
  /-- `getNextTimer() == max`. -/
  | stopping {s : IOState} {t : Tid} : s.At t (.idle .top) →
      Step c s (.stopping t) (s.goto t (.idle (if s.ext.m_timers = [] then .stop1 else .wait)))
  /-- `m_pendingEventCount == 0`. -/
  | stopping1 {s : IOState} {t : Tid} : s.At t (.idle .stop1) →
      Step c s (.stopping t) (s.goto t (.idle (if s.ext.m_pendingEventCount = 0 then .stop2 else .wait)))
  /-- `Scheduler::stopping()`: the idle fiber ends, or goes to epoll_wait. -/
  | stopping2 {s : IOState} {t : Tid} : s.At t (.idle .stop2) →
      Step c s (.stopping t) (if Scheduler.stopping s then s.set t { s.th t with pc := .back, idleTerm := true }
        else s.goto t (.idle .wait))
  | wake {s : IOState} {t : Tid} : s.At t (.idle .wait) → Step c s (.wake t) (s.goto t (.idle .expire))
  | expire {s : IOState} {t : Tid} (expired : Timer → Bool) : s.At t (.idle .expire) →
      Step c s (.expire t expired) ((s.goto t (.idle (.hand ((s.ext.m_timers.filter expired).map (·.cb))))).withExt
        { s.ext with m_timers := stillArmed expired s.ext.m_timers })
  | hand {s : IOState} {t : Tid} {cb : CbId} {cbs : List CbId} : s.At t (.idle (.hand (cb :: cbs))) →
      Step c s (.hand t) ((s.goto t (.idle (.hand cbs))).schedule t (.ofCb cb none))
  | handed {s : IOState} {t : Tid} : s.At t (.idle (.hand [])) → Step c s (.hand t) (s.goto t (.idle .events))
  | drain {s : IOState} {t : Tid} : s.At t (.idle .events) → Step c s (.drain t) (s.withExt { s.ext with pipe := 0 })
  | trigger {s : IOState} {t : Tid} (task : ScheduleTask) : s.At t (.idle .events) → task ∈ s.ext.events →
      Step c s (.trigger t task) (((s.goto t (.idle .triggered)).withExt
        { s.ext with events := s.ext.events.erase task }).schedule t task)
  | decr {s : IOState} {t : Tid} : s.At t (.idle .triggered) →
      Step c s (.decr t) ((s.goto t (.idle .events)).withExt
        { s.ext with m_pendingEventCount := s.ext.m_pendingEventCount - 1 })
  | yield {s : IOState} {t : Tid} : s.At t (.idle .events) → Step c s (.yield t) (s.goto t .back)

/-- The constructor is done: no timer, no event, an empty pipe. -/
structure Start (s : IOState) : Prop where
  run : Scheduler.Start s
  m_timers : s.ext.m_timers = []
  events : s.ext.events = []
  m_pendingEventCount : s.ext.m_pendingEventCount = 0
  pipe : s.ext.pipe = 0

abbrev Reach (c : Config) : IOState → Prop := Lts.Reach Start (Step c)

theorem empty_start : Start (State.empty ⟨[], [], 0, 0⟩) := ⟨Scheduler.empty_start _, rfl, rfl, rfl, rfl⟩

/-! ## What needs no condition -/

structure Inv (c : Config) (s : IOState) : Prop where
  run : Scheduler.Inv c s
  /-- No idle fiber ends before `stop`. -/
  term : ∀ t, (s.th t).idleTerm = true → s.m_stopping = true
  alive : ∀ t i, (s.th t).pc = .idle i → (s.th t).idleTerm = false
  left : ∀ t, (s.th t).pc = .left → (s.th t).idleTerm = true

theorem start_inv {c : Config} {s : IOState} (h : Start s) : Inv c s :=
  ⟨h.run.inv, fun t ht => by simp [h.run.outside t] at ht, fun t i ht => by simp [h.run.outside t] at ht,
    fun t ht => by simp [h.run.outside t] at ht⟩

/-- A thread moves on in its idle fiber, or back to `run`, with that fiber alive. -/
theorem Inv.goto {c : Config} {s s' : IOState} (hi : Inv c s) {t : Tid} {i : IdlePc} (hat : s.At t (.idle i))
    {pc : Pc IdlePc} (hpc : pc.held = none) (hact : pc.active = false) (hleft : pc ≠ .left)
    (hrun : s' = s.goto t pc) : Inv c s' := by
  subst hrun
  have halive := hi.alive t i hat.1
  refine ⟨hi.run.goto rfl rfl rfl rfl rfl rfl (by rw [hat.1, hpc]; rfl) (by rw [hat.1, hact]; rfl)
    (hi.run.members t (by rw [hat.1]; simp)), ?_, ?_, ?_⟩
  · intro u hu
    exact hi.term u (of_set (fun _ x => x.idleTerm = true) hu id)
  · intro u
    exact set_keeps (fun _ x => ∀ j, x.pc = .idle j → x.idleTerm = false) (hi.alive u) fun _ _ _ => halive
  · intro u
    exact set_keeps (fun _ x => x.pc = .left → x.idleTerm = true) (hi.left u) fun _ h => absurd h hleft

theorem Inv.withExt {c : Config} {s : IOState} (hi : Inv c s) (ext : Ext) : Inv c (s.withExt ext) :=
  ⟨hi.run.withExt ext, hi.term, hi.alive, hi.left⟩

theorem Inv.tickles {c : Config} {s : IOState} (hi : Inv c s) (t : Tid) (k : Tickle) : Inv c (s.tickles t k) := by
  refine ⟨hi.run.tickles t k, ?_, ?_, ?_⟩
  · intro u hu
    rw [tickles_idleTerm] at hu; exact hi.term u hu
  · intro u i hu
    rw [tickles_pc] at hu; rw [tickles_idleTerm]; exact hi.alive u i hu
  · intro u hu
    rw [tickles_pc] at hu; rw [tickles_idleTerm]; exact hi.left u hu

theorem Inv.schedule {c : Config} {s : IOState} (hi : Inv c s) (t : Tid) (task : ScheduleTask) :
    Inv c (s.schedule t task) := by
  have hstop := schedule_m_stopping s t task
  refine ⟨hi.run.schedule t task, ?_, ?_, ?_⟩
  · intro u hu
    rw [schedule_idleTerm] at hu; rw [hstop]; exact hi.term u hu
  · intro u i hu
    rw [schedule_pc] at hu; rw [schedule_idleTerm]; exact hi.alive u i hu
  · intro u hu
    rw [schedule_pc] at hu; rw [schedule_idleTerm]; exact hi.left u hu

/-- In `run` a thread enters its idle fiber only while that has not ended. -/
theorem run_alive {c : Config} {s s' : IOState} {a : RunAct} (h : RunStep c .top s a s') {u : Tid} {i : IdlePc}
    (hu : (s'.th u).pc = .idle i) : (s.th u).pc = .idle i ∨ (s.th u).idleTerm = false := by
  have hset (t : Tid) {x : Thread IdlePc} (hx : x.pc = .idle i → (s.th t).idleTerm = false)
      (h : ((s.set t x).th u).pc = .idle i) : (s.th u).pc = .idle i ∨ (s.th u).idleTerm = false := by
    rw [set_th] at h
    split at h
    · rename_i he; rw [he]; exact .inr (hx h)
    · exact .inl h
  cases h with
  | @dequeue t hat =>
    rcases dequeue_cases s t with ⟨x, pre, post, k, -, -, -, -, hd⟩ | ⟨k, -, hd⟩ <;> rw [hd] at hu
    · exact hset t (by simp) hu
    · exact hset t (by simp) hu
  | goIdle hat ht => exact hset _ (fun _ => ht) hu
  | @schedule t task _ => rw [schedule_pc] at hu; exact .inl hu
  | stop _ => exact .inl hu
  | @stopTickle t hat _ => rw [tickles_pc] at hu; exact .inl hu
  | _ => exact hset _ (by simp) hu

theorem run_stopping {c : Config} {s s' : IOState} {a : RunAct} (h : RunStep c .top s a s')
    (hs : s.m_stopping = true) : s'.m_stopping = true := by
  cases h with
  | @dequeue t hat =>
    rcases dequeue_cases s t with ⟨x, pre, post, k, -, -, -, -, hd⟩ | ⟨k, -, hd⟩ <;> rw [hd] <;> exact hs
  | schedule task _ => rw [schedule_m_stopping]; exact hs
  | stop _ => rfl
  | _ => exact hs

theorem step_inv {c : Config} {s s' : IOState} {a : Act} (hi : Inv c s) (h : Step c s a s') : Inv c s' := by
  cases h with
  | run h =>
    refine ⟨h.inv hi.run, ?_, ?_, ?_⟩
    · intro u hu
      rw [h.idleTerm] at hu; exact run_stopping h (hi.term u hu)
    · intro u i hu
      rw [h.idleTerm]; exact (run_alive h hu).elim (hi.alive u i) id
    · intro u hu
      rw [h.idleTerm]; exact (h.left hu).elim (hi.left u) id
  | tickle _ => exact hi.tickles _ _
  | write _ => exact (hi.tickles _ _).withExt _
  | addTimer timer atFront _ =>
    cases atFront with
    | true => exact (hi.tickles _ _).withExt _
    | false => exact hi.withExt _
  | cancelTimer timer _ => exact hi.withExt _
  | addEvent task _ => exact hi.withExt _
  | delEvent task _ _ => exact hi.withExt _
  | stopping hat => exact hi.goto hat rfl rfl (by simp) rfl
  | stopping1 hat => exact hi.goto hat rfl rfl (by simp) rfl
  | @stopping2 t hat =>
    split
    · rename_i hs
      simp only [Scheduler.stopping, Bool.and_eq_true] at hs
      refine ⟨hi.run.move rfl rfl rfl rfl rfl rfl (by rw [hat.1]; rfl) (by rw [hat.1]; rfl)
        fun _ => hi.run.members t (by rw [hat.1]; simp), fun u _ => hs.1.1, ?_, ?_⟩
      · intro u
        exact set_keeps (fun _ x => ∀ i, x.pc = .idle i → x.idleTerm = false) (hi.alive u) fun _ _ h => by cases h
      · intro u
        exact set_keeps (fun _ x => x.pc = .left → x.idleTerm = true) (hi.left u) fun _ h => by cases h
    · exact hi.goto hat rfl rfl (by simp) rfl
  | wake hat => exact hi.goto hat rfl rfl (by simp) rfl
  | expire expired hat => exact (hi.goto hat rfl rfl (by simp) rfl).withExt _
  | hand hat => exact (hi.goto hat rfl rfl (by simp) rfl).schedule _ _
  | handed hat => exact hi.goto hat rfl rfl (by simp) rfl
  | drain _ => exact hi.withExt _
  | trigger task hat _ => exact ((hi.goto hat rfl rfl (by simp) rfl).withExt _).schedule _ _
  | decr hat => exact (hi.goto hat rfl rfl (by simp) rfl).withExt _
  | yield hat => exact hi.goto hat rfl rfl (by simp) rfl

end Sylar.IOMachine
