/-
  Sylar.Scheduler.Run — `Scheduler::schedule`, `stop` and `run` (sylar/scheduler.h,
  sylar/scheduler.cpp) for any number of threads, one step at a time.

  Actors. The scheduler threads (`Config.threads`; `caller` is the one of `use_caller`,
  which enters `run` only inside `stop`), and any other thread, which may schedule tasks
  and call `stop`. A thread is at a `Pc`; in a call of `tickle` it has in addition a
  `Tickle`, and goes on when that is over. `idle`, `stopping` and `tickle` are virtual:
  the idle fiber's program points `ι`, the derived class's state `δ` and their steps come
  with the derived class (`Sylar.Scheduler.Base`, `Sylar.IOManager.Machine`).

  Tasks carry the number of their submission; `dequeued` and `started` log who took what.
  `run` asserts that a fiber it takes from the queue is READY, which is a matter of what
  the fibers do (`Sylar.Handover.Step` has the assertion); the runs here go on past it. So
  what holds of all of them holds of the code's, and a way on that is found here is one of
  the code where queued fibers are READY when they are taken.

  Proved, of every step: numbers are given in order and each is either queued or was
  dequeued once, by a thread that may run it (`Inv`, kept by `RunStep.inv`).
-/

import Sylar.Lib.Count
import Sylar.Scheduler.Task
import Mathlib.Data.List.Perm.Basic
import Mathlib.Data.List.Nodup

namespace Sylar.Scheduler

/-- The next thing a thread does. -/
inductive Pc (ι : Type) where
  /-- Not in `run`: another thread, or one that has yet to enter it. -/
  | outside
  | top
  | start (x : Entry)
  | slice (x : Entry)
  | done (x : Entry)
  | noTask
  | idle (i : ι)
  | back
  | left
  deriving DecidableEq

/-- In a call of `tickle`: before the test of `m_idleThreadCount`, before the write. -/
inductive Tickle where
  | no
  | check
  | write
  deriving DecidableEq, Repr

structure Thread (ι : Type) where
  pc : Pc ι
  tickle : Tickle
  /-- `idle_fiber->getState() == Fiber::TERM`. -/
  idleTerm : Bool
  deriving DecidableEq

structure Config where
  threads : Finset Tid
  caller : Option Tid
  /-- Whether other threads may schedule after `stop` was called. -/
  late : Bool
  nonempty : threads.Nonempty

structure State (ι δ : Type) where
  m_tasks : List Entry
  submitted : Nat
  dequeued : List (Entry × Tid)
  started : List (Entry × Tid)
  m_activeThreadCount : Nat
  m_idleThreadCount : Nat
  m_stopping : Bool
  th : Tid → Thread ι
  ext : δ

variable {ι δ : Type}

namespace State

def set (s : State ι δ) (t : Tid) (x : Thread ι) : State ι δ := { s with th := Function.update s.th t x }

def goto (s : State ι δ) (t : Tid) (pc : Pc ι) : State ι δ := s.set t { s.th t with pc := pc }

def tickles (s : State ι δ) (t : Tid) (k : Tickle) : State ι δ := s.set t { s.th t with tickle := k }

def withExt (s : State ι δ) (ext : δ) : State ι δ := { s with ext := ext }

/-- `t` is at `pc` and in no call of `tickle`. -/
def At (s : State ι δ) (t : Tid) (pc : Pc ι) : Prop := (s.th t).pc = pc ∧ (s.th t).tickle = .no

/-- `schedule`: the push under the lock, then `tickle` when the queue was empty. -/
def schedule (s : State ι δ) (t : Tid) (task : ScheduleTask) : State ι δ :=
  let r := scheduleNoLock s.m_tasks task s.submitted
  let s := { s with m_tasks := r.1, submitted := if task.nonEmpty then s.submitted + 1 else s.submitted }
  if r.2 then s.tickles t .check else s

/-- The scan of `run` under the lock, then `tickle` when `tickle_me`. -/
def dequeue (s : State ι δ) (t : Tid) : State ι δ :=
  let r := scan (Entry.eligible t) s.m_tasks
  let tickle := if r.tickleMe then .check else (s.th t).tickle
  match r.task with
  | some x =>
    let s := { s with
      m_tasks := r.rest
      m_activeThreadCount := s.m_activeThreadCount + 1
      dequeued := s.dequeued ++ [(x, t)] }
    s.set t { s.th t with pc := .start x, tickle := tickle }
  | none => { s with m_tasks := r.rest }.set t { s.th t with pc := .noTask, tickle := tickle }

end State

/-- `t` runs user code: a task, or outside `run` while that may still add work. -/
def State.User (c : Config) (s : State ι δ) (t : Tid) : Prop :=
  (∃ x, s.At t (.slice x)) ∨ (s.At t .outside ∧ (c.late = true ∨ s.m_stopping = false))

/-- `Scheduler::stopping`, under the lock. -/
def stopping (s : State ι δ) : Bool := s.m_stopping && s.m_tasks.isEmpty && s.m_activeThreadCount == 0

/-! ## Steps -/

inductive RunAct where
  | enter (t : Tid)
  | dequeue (t : Tid)
  | resume (t : Tid)
  | finish (t : Tid)
  | decr (t : Tid)
  | leave (t : Tid)
  | goIdle (t : Tid)
  | back (t : Tid)
  | schedule (t : Tid) (task : ScheduleTask)
  | stop (t : Tid)
  | stopTickle (t : Tid)
  deriving DecidableEq

/-- `i₀` is where the idle fiber goes on when it is resumed. -/
inductive RunStep (c : Config) (i₀ : ι) : State ι δ → RunAct → State ι δ → Prop
  | enter {s : State ι δ} {t : Tid} : s.At t .outside → t ∈ c.threads → (c.caller = some t → s.m_stopping = true) →
      RunStep c i₀ s (.enter t) (s.goto t .top)
  | dequeue {s : State ι δ} {t : Tid} : s.At t .top → RunStep c i₀ s (.dequeue t) (s.dequeue t)
  /-- `task.m_fiber->resume()`, or that of the callback's fiber. -/
  | resume {s : State ι δ} {t : Tid} {x : Entry} : s.At t (.start x) →
      RunStep c i₀ s (.resume t) { s.goto t (.slice x) with started := s.started ++ [(x, t)] }
  /-- The task yields or ends. -/
  | finish {s : State ι δ} {t : Tid} {x : Entry} : s.At t (.slice x) → RunStep c i₀ s (.finish t) (s.goto t (.done x))
  | decr {s : State ι δ} {t : Tid} {x : Entry} : s.At t (.done x) →
      RunStep c i₀ s (.decr t) { s.goto t .top with m_activeThreadCount := s.m_activeThreadCount - 1 }
  | leave {s : State ι δ} {t : Tid} : s.At t .noTask → (s.th t).idleTerm = true →
      RunStep c i₀ s (.leave t) (s.goto t .left)
  | goIdle {s : State ι δ} {t : Tid} : s.At t .noTask → (s.th t).idleTerm = false →
      RunStep c i₀ s (.goIdle t) { s.goto t (.idle i₀) with m_idleThreadCount := s.m_idleThreadCount + 1 }
  | back {s : State ι δ} {t : Tid} : s.At t .back →
      RunStep c i₀ s (.back t) { s.goto t .top with m_idleThreadCount := s.m_idleThreadCount - 1 }
  | schedule {s : State ι δ} {t : Tid} (task : ScheduleTask) : s.User c t →
      RunStep c i₀ s (.schedule t task) (s.schedule t task)
  | stop {s : State ι δ} {t : Tid} : s.At t .outside → RunStep c i₀ s (.stop t) { s with m_stopping := true }
  /-- One of the tickles of `stop`. -/
  | stopTickle {s : State ι δ} {t : Tid} : s.At t .outside → s.m_stopping = true →
      RunStep c i₀ s (.stopTickle t) (s.tickles t .check)

/-- Nothing queued, no thread in `run`. -/
structure Start (s : State ι δ) : Prop where
  m_tasks : s.m_tasks = []
  submitted : s.submitted = 0
  dequeued : s.dequeued = []
  started : s.started = []
  m_activeThreadCount : s.m_activeThreadCount = 0
  m_idleThreadCount : s.m_idleThreadCount = 0
  m_stopping : s.m_stopping = false
  outside : ∀ t, s.th t = ⟨.outside, .no, false⟩

/-! ## The state after an operation -/

section
variable (s : State ι δ) (t u : Tid)

theorem set_th (x : Thread ι) : (s.set t x).th u = if u = t then x else s.th u := Function.update_apply s.th t x u

@[simp] theorem set_th_self (x : Thread ι) : (s.set t x).th t = x := by simp [State.set]

theorem set_th_ne (x : Thread ι) (h : u ≠ t) : (s.set t x).th u = s.th u := by rw [set_th, if_neg h]

/-- One thread has become `x`: what holds of a thread still does, if that one kept it. -/
theorem set_keeps {s : State ι δ} {t u : Tid} {x : Thread ι} (P : Tid → Thread ι → Prop) (h : P u (s.th u))
    (hx : P t (s.th t) → P t x) : P u ((s.set t x).th u) := by
  by_cases e : u = t
  · subst e
    rw [set_th_self]
    exact hx h
  · rw [set_th_ne s t u x e]
    exact h

/-- And what holds afterwards did before, if that one had it. -/
theorem of_set {s : State ι δ} {t u : Tid} {x : Thread ι} (P : Tid → Thread ι → Prop)
    (h : P u ((s.set t x).th u)) (hx : P t x → P t (s.th t)) : P u (s.th u) := by
  by_cases e : u = t
  · subst e
    rw [set_th_self] at h
    exact hx h
  · rw [set_th_ne s t u x e] at h
    exact h

@[simp] theorem goto_pc_self (pc : Pc ι) : ((s.goto t pc).th t).pc = pc := by simp [State.goto]

theorem tickles_pc (k : Tickle) : ((s.tickles t k).th u).pc = (s.th u).pc := by
  rw [State.tickles, set_th]; split
  · rename_i h; rw [h]
  · rfl

theorem tickles_idleTerm (k : Tickle) : ((s.tickles t k).th u).idleTerm = (s.th u).idleTerm := by
  rw [State.tickles, set_th]; split
  · rename_i h; rw [h]
  · rfl

/-- `schedule` leaves every thread where it is. -/
theorem schedule_pc (task : ScheduleTask) : ((s.schedule t task).th u).pc = (s.th u).pc := by
  simp only [State.schedule]
  split
  · exact tickles_pc _ t u .check
  · rfl

theorem schedule_idleTerm (task : ScheduleTask) : ((s.schedule t task).th u).idleTerm = (s.th u).idleTerm := by
  simp only [State.schedule]
  split
  · exact tickles_idleTerm _ t u .check
  · rfl

theorem schedule_m_tasks (task : ScheduleTask) :
    (s.schedule t task).m_tasks = if task.nonEmpty then s.m_tasks ++ [⟨task, s.submitted⟩] else s.m_tasks := by
  simp only [State.schedule]; split <;> rfl

theorem schedule_dequeued (task : ScheduleTask) : (s.schedule t task).dequeued = s.dequeued := by
  simp only [State.schedule]; split <;> rfl

theorem schedule_ext (task : ScheduleTask) : (s.schedule t task).ext = s.ext := by
  simp only [State.schedule]; split <;> rfl

theorem schedule_m_stopping (task : ScheduleTask) : (s.schedule t task).m_stopping = s.m_stopping := by
  simp only [State.schedule]; split <;> rfl

theorem schedule_m_idleThreadCount (task : ScheduleTask) :
    (s.schedule t task).m_idleThreadCount = s.m_idleThreadCount := by
  simp only [State.schedule]; split <;> rfl

/-- Onto an empty queue `schedule` tickles; else it leaves every thread as it is. -/
theorem schedule_cases (task : ScheduleTask) :
    (s.m_tasks = [] ∧ (s.schedule t task).th = (s.tickles t .check).th) ∨
      (s.m_tasks ≠ [] ∧ (s.schedule t task).th = s.th) := by
  simp only [State.schedule]
  split
  · rename_i h
    exact .inl ⟨List.isEmpty_iff.mp h, rfl⟩
  · rename_i h
    exact .inr ⟨fun he => h (List.isEmpty_iff.mpr he), rfl⟩

theorem schedule_th_ne (task : ScheduleTask) (h : u ≠ t) : (s.schedule t task).th u = s.th u := by
  rcases schedule_cases s t task with ⟨-, hth⟩ | ⟨-, hth⟩
  · rw [hth]
    exact set_th_ne s t u _ h
  · rw [hth]

end

/-! ## Numbers, logs and counts -/

/-- The task a thread has dequeued and not yet started. -/
def Pc.held : Pc ι → Option Entry
  | .start x => some x
  | _ => none

/-- Between a dequeue and the matching decrement. -/
def Pc.active : Pc ι → Bool
  | .start _ | .slice _ | .done _ => true
  | _ => false

structure Inv (c : Config) (s : State ι δ) : Prop where
  numbers : (s.dequeued.map (·.1.number) ++ s.m_tasks.map (·.number)).Perm (List.range s.submitted)
  order : (s.m_tasks.map (·.number)).Pairwise (· < ·)
  eligible : ∀ y ∈ s.dequeued, y.1.eligible y.2 = true
  startedOnce : s.started.Nodup
  startedSub : ∀ y ∈ s.started, y ∈ s.dequeued
  held : ∀ t x, (s.th t).pc.held = some x → (x, t) ∈ s.dequeued ∧ (x, t) ∉ s.started
  kept : ∀ y ∈ s.dequeued, y ∈ s.started ∨ (s.th y.2).pc.held = some y.1
  active : s.m_activeThreadCount = countOn c.threads (·.pc.active) s.th
  members : ∀ t, (s.th t).pc ≠ .outside → t ∈ c.threads

theorem Start.inv {c : Config} {s : State ι δ} (h : Start s) : Inv c s where
  numbers := by simp [h.dequeued, h.m_tasks, h.submitted]
  order := by simp [h.m_tasks]
  eligible := by simp [h.dequeued]
  startedOnce := by simp [h.started]
  startedSub := by simp [h.started]
  held t x hx := by rw [h.outside t] at hx; cases hx
  kept := by simp [h.dequeued]
  active := by
    rw [h.m_activeThreadCount, eq_comm, countOn_eq_zero]
    intro t _; rw [h.outside t]; rfl
  members t ht := absurd (by rw [h.outside t]) ht

/-- A thread moves on with what it holds. -/
theorem Inv.move {c : Config} {s s' : State ι δ} (hi : Inv c s) {t : Tid} {x : Thread ι} (hth : s'.th = (s.set t x).th)
    (hq : s'.m_tasks = s.m_tasks) (hn : s'.submitted = s.submitted) (hd : s'.dequeued = s.dequeued)
    (hs : s'.started = s.started) (ha : s'.m_activeThreadCount = s.m_activeThreadCount)
    (hheld : x.pc.held = (s.th t).pc.held) (hact : x.pc.active = (s.th t).pc.active)
    (hm : x.pc ≠ .outside → t ∈ c.threads) : Inv c s' where
  numbers := by rw [hd, hq, hn]; exact hi.numbers
  order := by rw [hq]; exact hi.order
  eligible := by rw [hd]; exact hi.eligible
  startedOnce := by rw [hs]; exact hi.startedOnce
  startedSub := by rw [hs, hd]; exact hi.startedSub
  held u y hy := by
    rw [hth, set_th] at hy
    rw [hd, hs]
    split at hy
    · rename_i h; subst h; exact hi.held u y (hheld ▸ hy)
    · exact hi.held u y hy
  kept y hy := by
    rw [hd] at hy
    rw [hs, hth, set_th]
    split
    · rename_i h; rw [hheld, ← h]; exact hi.kept y hy
    · exact hi.kept y hy
  active := by
    rw [ha, hi.active, hth]
    by_cases ht : t ∈ c.threads
    · have := countOn_update ht (·.pc.active) s.th x
      rw [hact] at this
      exact (Nat.add_right_cancel this).symm
    · exact (countOn_update_of_notMem ht _ _ _).symm
  members u hu := by
    rw [hth, set_th] at hu
    split at hu
    · rename_i h; subst h; exact hm hu
    · exact hi.members u hu

/-- Members of `threads` may move between program points with no task. -/
theorem Inv.goto {c : Config} {s s' : State ι δ} (hi : Inv c s) {t : Tid} {pc : Pc ι} (hth : s'.th = (s.goto t pc).th)
    (hq : s'.m_tasks = s.m_tasks) (hn : s'.submitted = s.submitted) (hd : s'.dequeued = s.dequeued)
    (hs : s'.started = s.started) (ha : s'.m_activeThreadCount = s.m_activeThreadCount)
    (hheld : pc.held = (s.th t).pc.held) (hact : pc.active = (s.th t).pc.active)
    (hm : t ∈ c.threads) : Inv c s' :=
  hi.move hth hq hn hd hs ha hheld hact fun _ => hm

theorem Inv.tickles {c : Config} {s : State ι δ} (hi : Inv c s) (t : Tid) (k : Tickle) : Inv c (s.tickles t k) :=
  hi.move rfl rfl rfl rfl rfl rfl rfl rfl (hi.members t)

theorem Inv.withExt {c : Config} {s : State ι δ} (hi : Inv c s) (ext : δ) : Inv c (s.withExt ext) :=
  ⟨hi.numbers, hi.order, hi.eligible, hi.startedOnce, hi.startedSub, hi.held, hi.kept, hi.active, hi.members⟩

/-- A number never comes twice, queued or dequeued. -/
theorem Inv.numbers_nodup {c : Config} {s : State ι δ} (hi : Inv c s) :
    (s.dequeued.map (·.1.number) ++ s.m_tasks.map (·.number)).Nodup :=
  hi.numbers.nodup_iff.mpr List.nodup_range

theorem Inv.schedule {c : Config} {s : State ι δ} (hi : Inv c s) (t : Tid) (task : ScheduleTask) :
    Inv c (s.schedule t task) := by
  have key : Inv c { s with
      m_tasks := (scheduleNoLock s.m_tasks task s.submitted).1
      submitted := if task.nonEmpty then s.submitted + 1 else s.submitted } := by
    unfold scheduleNoLock
    cases task.nonEmpty with
    | false =>
      exact ⟨hi.numbers, hi.order, hi.eligible, hi.startedOnce, hi.startedSub, hi.held, hi.kept, hi.active, hi.members⟩
    | true =>
      refine ⟨?_, ?_, hi.eligible, hi.startedOnce, hi.startedSub, hi.held, hi.kept, hi.active, hi.members⟩
      · simp only [if_true, List.map_append, List.map_cons, List.map_nil, List.range_succ, ← List.append_assoc]
        exact hi.numbers.append_right _
      · simp only [if_true, List.map_append, List.map_cons, List.map_nil, List.pairwise_append]
        refine ⟨hi.order, List.pairwise_singleton _ _, ?_⟩
        intro a ha b hb
        rw [List.mem_singleton] at hb
        subst hb
        exact List.mem_range.mp (hi.numbers.subset (List.mem_append_right _ ha))
  simp only [State.schedule]
  split
  · exact key.tickles t _
  · exact key

/-- What a dequeue does: a task taken out of the queue, or none there to take. -/
theorem dequeue_cases (s : State ι δ) (t : Tid) :
    (∃ x pre post k, s.m_tasks = pre ++ x :: post ∧ x.eligible t = true ∧ (∀ y ∈ pre, y.eligible t = false) ∧
      (pre ++ post ≠ [] → k = .check) ∧
      s.dequeue t = { s with m_tasks := pre ++ post, m_activeThreadCount := s.m_activeThreadCount + 1
                             dequeued := s.dequeued ++ [(x, t)]
                             th := (s.set t ⟨.start x, k, (s.th t).idleTerm⟩).th }) ∨
    (∃ k, (∀ y ∈ s.m_tasks, y.eligible t = false) ∧ s.dequeue t = s.set t ⟨.noTask, k, (s.th t).idleTerm⟩) := by
  cases hr : (scan (Entry.eligible t) s.m_tasks).task with
  | some x =>
    obtain ⟨pre, post, hq, hrest, hx, hpre⟩ := scan_some hr
    refine .inl ⟨x, pre, post, _, hq, hx, hpre, ?_, by simp only [State.dequeue, hr, hrest]; rfl⟩
    intro hne
    rw [scan_tickleMe, hrest]
    cases h : pre ++ post with
    | nil => exact absurd h hne
    | cons a l => rfl
  | none =>
    obtain ⟨hrest, hno⟩ := scan_none hr
    exact .inr ⟨_, hno, by simp only [State.dequeue, hr, hrest]; rfl⟩

theorem dequeue_th_ne (s : State ι δ) {t u : Tid} (h : u ≠ t) : (s.dequeue t).th u = s.th u := by
  rcases dequeue_cases s t with ⟨x, pre, post, k, -, -, -, -, hd⟩ | ⟨k, -, hd⟩
  · rw [hd]
    exact set_th_ne s t u _ h
  · rw [hd]
    exact set_th_ne s t u _ h

/-- Of the tasks a thread may run it takes the one submitted first. -/
theorem dequeue_first {c : Config} {s : State ι δ} (hi : Inv c s) {t : Tid} {x : Entry}
    (h : ((s.dequeue t).th t).pc = .start x) :
    x ∈ s.m_tasks ∧ x.eligible t = true ∧ ∀ y ∈ s.m_tasks, y.eligible t = true → x.number ≤ y.number := by
  rcases dequeue_cases s t with ⟨x', pre, post, k, hq, hx, hpre, -, hd⟩ | ⟨k, -, hd⟩
  · rw [hd, set_th_self] at h
    cases h
    refine ⟨by rw [hq]; simp, hx, ?_⟩
    intro y hy he
    have hord := hi.order
    rw [hq] at hy hord
    rw [List.map_append, List.map_cons, List.pairwise_append, List.pairwise_cons] at hord
    rcases List.mem_append.mp hy with hy | hy
    · rw [hpre y hy] at he; cases he
    · rcases List.mem_cons.mp hy with rfl | hy
      · exact Nat.le_refl _
      · exact Nat.le_of_lt (hord.2.1.1 _ (List.mem_map_of_mem hy))
  · rw [hd, set_th_self] at h; cases h

theorem Inv.dequeue {c : Config} {s : State ι δ} (hi : Inv c s) {t : Tid} (hpc : (s.th t).pc = .top) :
    Inv c (s.dequeue t) := by
  have ht : t ∈ c.threads := hi.members t (by rw [hpc]; simp)
  rcases dequeue_cases s t with ⟨x, pre, post, k, hq, hx, -, -, hd⟩ | ⟨k, -, hd⟩
  · rw [hd]
    have hn := hi.numbers
    have ho := hi.order
    rw [hq] at hn ho
    simp only [List.map_append, List.map_cons] at hn ho
    have hfresh : ∀ y ∈ s.dequeued, y.1.number ≠ x.number := fun y hy he => by
      have := hi.numbers_nodup
      rw [hq, List.nodup_append] at this
      exact this.2.2 _ (List.mem_map_of_mem hy) _ (List.mem_map_of_mem (by simp)) he
    refine ⟨?_, ?_, ?_, hi.startedOnce, ?_, ?_, ?_, ?_, ?_⟩
    · -- the task moves from the queue to the log
      refine List.Perm.trans ?_ hn
      simp only [List.map_append, List.map_cons, List.map_nil, List.append_assoc, List.singleton_append]
      exact (List.perm_middle.symm).append_left _
    · simp only [List.map_append]
      rw [List.pairwise_append] at ho ⊢
      exact ⟨ho.1, (List.pairwise_cons.mp ho.2.1).2, fun a ha b hb => ho.2.2 a ha b (List.mem_cons_of_mem _ hb)⟩
    · intro y hy
      rcases List.mem_append.mp hy with hy | hy
      · exact hi.eligible y hy
      · rw [List.mem_singleton] at hy; subst hy; exact hx
    · exact fun y hy => List.mem_append_left _ (hi.startedSub y hy)
    · intro u y hy
      simp only [set_th] at hy
      split at hy
      · rename_i hu
        subst hu; cases hy
        exact ⟨List.mem_append_right _ (by simp), fun hs => hfresh _ (hi.startedSub _ hs) rfl⟩
      · exact ⟨List.mem_append_left _ (hi.held u y hy).1, (hi.held u y hy).2⟩
    · intro y hy
      rcases List.mem_append.mp hy with hy | hy
      · rcases hi.kept y hy with h | h
        · exact .inl h
        · have hne : y.2 ≠ t := fun he => by rw [he, hpc] at h; cases h
          exact .inr (by simp only [set_th, if_neg hne]; exact h)
      · rw [List.mem_singleton] at hy; subst hy
        exact .inr (by simp [Pc.held])
    · have := countOn_update ht (·.pc.active) s.th ⟨.start x, k, (s.th t).idleTerm⟩
      rw [hpc] at this
      rw [hi.active]; exact this.symm
    · intro u hu
      simp only [set_th] at hu
      split at hu
      · rename_i h; rw [h]; exact ht
      · exact hi.members u hu
  · rw [hd]
    exact hi.move rfl rfl rfl rfl rfl rfl (by rw [hpc]; rfl) (by rw [hpc]; rfl) fun _ => ht

theorem RunStep.inv {c : Config} {i₀ : ι} {s s' : State ι δ} {a : RunAct} (h : RunStep c i₀ s a s') (hi : Inv c s) :
    Inv c s' := by
  cases h with
  | enter hat ht _ =>
    exact hi.goto rfl rfl rfl rfl rfl rfl (by rw [hat.1]; rfl) (by rw [hat.1]; rfl) ht
  | dequeue hat => exact hi.dequeue hat.1
  | @resume t x hat =>
    have ht : t ∈ c.threads := hi.members t (by rw [hat.1]; simp)
    have hx := hi.held t x (by rw [hat.1]; rfl)
    have hth := countOn_update ht (·.pc.active) s.th { s.th t with pc := .slice x }
    rw [hat.1] at hth
    refine ⟨hi.numbers, hi.order, hi.eligible, ?_, ?_, ?_, ?_, hi.active.trans (Nat.add_right_cancel hth).symm, ?_⟩
    · rw [List.nodup_append]
      refine ⟨hi.startedOnce, List.nodup_singleton _, ?_⟩
      intro y hy z hz he
      rw [List.mem_singleton] at hz
      subst hz; subst he; exact hx.2 hy
    · intro y hy
      rcases List.mem_append.mp hy with hy | hy
      · exact hi.startedSub y hy
      · rw [List.mem_singleton] at hy; subst hy; exact hx.1
    · intro u y hy
      simp only [State.goto, set_th] at hy
      split at hy
      · cases hy
      · rename_i hu
        refine ⟨(hi.held u y hy).1, ?_⟩
        intro hs
        rcases List.mem_append.mp hs with hs | hs
        · exact (hi.held u y hy).2 hs
        · rw [List.mem_singleton] at hs; cases hs; exact hu rfl
    · intro y hy
      rcases hi.kept y hy with h | h
      · exact .inl (List.mem_append_left _ h)
      · by_cases hu : y.2 = t
        · rw [hu, hat.1] at h; cases h
          exact .inl (List.mem_append_right _ (by rw [← hu]; simp))
        · exact .inr (by simp only [State.goto, set_th, if_neg hu]; exact h)
    · intro u hu
      simp only [State.goto, set_th] at hu
      split at hu
      · rename_i h; rw [h]; exact ht
      · exact hi.members u hu
  | @finish t x hat =>
    have ht : t ∈ c.threads := hi.members t (by rw [hat.1]; simp)
    exact hi.goto rfl rfl rfl rfl rfl rfl (by rw [hat.1]; rfl) (by rw [hat.1]; rfl) ht
  | @decr t x hat =>
    have ht : t ∈ c.threads := hi.members t (by rw [hat.1]; simp)
    have hth := countOn_update ht (·.pc.active) s.th { s.th t with pc := .top }
    rw [hat.1] at hth
    refine ⟨hi.numbers, hi.order, hi.eligible, hi.startedOnce, hi.startedSub, ?_, ?_,
      Nat.sub_eq_of_eq_add (hi.active.trans hth.symm), ?_⟩
    · intro u y hy
      simp only [State.goto, set_th] at hy
      split at hy
      · cases hy
      · exact hi.held u y hy
    · intro y hy
      refine (hi.kept y hy).imp id ?_
      intro h
      have hu : y.2 ≠ t := fun hu => by rw [hu, hat.1] at h; cases h
      simp only [State.goto, set_th, if_neg hu]; exact h
    · intro u hu
      simp only [State.goto, set_th] at hu
      split at hu
      · rename_i h; rw [h]; exact ht
      · exact hi.members u hu
  | @leave t hat _ =>
    have ht : t ∈ c.threads := hi.members t (by rw [hat.1]; simp)
    exact hi.goto rfl rfl rfl rfl rfl rfl (by rw [hat.1]; rfl) (by rw [hat.1]; rfl) ht
  | @goIdle t hat _ =>
    have ht : t ∈ c.threads := hi.members t (by rw [hat.1]; simp)
    exact hi.goto rfl rfl rfl rfl rfl rfl (by rw [hat.1]; rfl) (by rw [hat.1]; rfl) ht
  | @back t hat =>
    have ht : t ∈ c.threads := hi.members t (by rw [hat.1]; simp)
    exact hi.goto rfl rfl rfl rfl rfl rfl (by rw [hat.1]; rfl) (by rw [hat.1]; rfl) ht
  | schedule task _ => exact hi.schedule _ task
  | stop _ =>
    exact ⟨hi.numbers, hi.order, hi.eligible, hi.startedOnce, hi.startedSub, hi.held, hi.kept, hi.active, hi.members⟩
  | stopTickle _ _ => exact hi.tickles _ _

/-- In `run` no idle fiber is touched. -/
theorem RunStep.idleTerm {c : Config} {i₀ : ι} {s s' : State ι δ} {a : RunAct} (h : RunStep c i₀ s a s') (u : Tid) :
    (s'.th u).idleTerm = (s.th u).idleTerm := by
  have hset (t : Tid) {x : Thread ι} (hx : x.idleTerm = (s.th t).idleTerm) :
      ((s.set t x).th u).idleTerm = (s.th u).idleTerm := by
    rw [set_th]; split
    · rename_i h; rw [hx, h]
    · rfl
  cases h with
  | dequeue hat =>
    rename_i t
    rcases dequeue_cases s t with ⟨x, pre, post, k, -, -, -, -, hd⟩ | ⟨k, -, hd⟩ <;> rw [hd]
    · exact hset t rfl
    · exact hset t rfl
  | schedule task _ => exact schedule_idleTerm s _ u task
  | stop _ => rfl
  | _ => exact hset _ rfl

/-- In `run` only a thread whose idle fiber has ended leaves. -/
theorem RunStep.left {c : Config} {i₀ : ι} {s s' : State ι δ} {a : RunAct} (h : RunStep c i₀ s a s') {u : Tid}
    (hu : (s'.th u).pc = .left) : (s.th u).pc = .left ∨ (s.th u).idleTerm = true := by
  have hset (t : Tid) {x : Thread ι} (hx : x.pc = .left → (s.th t).idleTerm = true)
      (h : ((s.set t x).th u).pc = .left) : (s.th u).pc = .left ∨ (s.th u).idleTerm = true := by
    rw [set_th] at h
    split at h
    · rename_i he; rw [he]; exact .inr (hx h)
    · exact .inl h
  cases h with
  | @dequeue t hat =>
    rcases dequeue_cases s t with ⟨x, pre, post, k, -, -, -, -, hd⟩ | ⟨k, -, hd⟩ <;> rw [hd] at hu
    · exact hset t (by simp) hu
    · exact hset t (by simp) hu
  | leave hat ht => exact hset _ (fun _ => ht) hu
  | @schedule t task _ => rw [schedule_pc] at hu; exact .inl hu
  | stop _ => exact .inl hu
  | @stopTickle t hat _ => exact hset t (fun h => by rw [hat.1] at h; cases h) hu
  | _ => exact hset _ (by simp) hu

theorem Inv.started_numbers {c : Config} {s : State ι δ} (hi : Inv c s) : (s.started.map (·.1.number)).Nodup := by
  have hinj := List.inj_on_of_nodup_map (List.nodup_append.mp hi.numbers_nodup).1
  exact hi.startedOnce.map_on fun x hx y hy he => hinj (hi.startedSub x hx) (hi.startedSub y hy) he

/-- With no task queued or held, every submission has been started. -/
theorem Inv.all_started {c : Config} {s : State ι δ} (hi : Inv c s) (hq : s.m_tasks = [])
    (hno : ∀ t, (s.th t).pc.held = none) {n : Nat} (hn : n < s.submitted) :
    (s.started.map (·.1.number)).count n = 1 := by
  rw [List.count_eq_one_of_mem hi.started_numbers]
  have hm := hi.numbers.symm.subset (List.mem_range.mpr hn)
  rw [hq, List.map_nil, List.append_nil] at hm
  obtain ⟨y, hy, rfl⟩ := List.mem_map.mp hm
  rcases hi.kept y hy with h | h
  · exact List.mem_map_of_mem h
  · rw [hno] at h; cases h

/-! ## Small schedulers -/

/-- One scheduler thread, 1, and no caller thread. -/
def oneThread : Config := ⟨{1}, none, false, ⟨1, by simp⟩⟩

/-- Scheduler threads 1 and 2. -/
def twoThreads : Config := ⟨{1, 2}, none, false, ⟨1, by simp⟩⟩

def State.empty (ext : δ) : State ι δ := ⟨[], 0, [], [], 0, 0, false, fun _ => ⟨.outside, .no, false⟩, ext⟩

theorem empty_start (ext : δ) : Start (State.empty ext : State ι δ) :=
  ⟨rfl, rfl, rfl, rfl, rfl, rfl, rfl, fun _ => rfl⟩

end Sylar.Scheduler
