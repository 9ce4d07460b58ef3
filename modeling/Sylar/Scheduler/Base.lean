/-
  Sylar.Scheduler.Base — `Scheduler` with its own `idle`, `stopping` and `tickle`
  (sylar/scheduler.cpp lines 65-76): the idle fiber tests `stopping` each time it is
  resumed and yields, or ends; `tickle` only logs. Tasks are handed in by `schedule`, as a
  pointer to a fiber, the address of one, or a callback (`FiberOrCb`).

  Proved, for any number of threads, tasks and any interleaving: every thread takes the
  oldest task it may run, every task is dequeued and started at most once and where it is
  pinned, the active count is the number of threads inside a task; when all threads have
  left, the queue is empty, and what was started is what was handed in exactly when none
  of it came by the address of a pointer (`tasks_started_iff`).
-/

import Sylar.Lib.Lts
import Sylar.Scheduler.Run

namespace Sylar.Scheduler.Base

inductive Act where
  | run (a : RunAct)
  | schedule (t : Tid) (fc : FiberOrCb) (threadId : Option Tid)
  | tickle (t : Tid)
  | idle (t : Tid)
  deriving DecidableEq

/-- Tasks come by `schedule` only. -/
inductive Step (c : Config) : State Unit Unit → Act → State Unit Unit → Prop
  | run {s s' : State Unit Unit} {a : RunAct} (h : RunStep c () s a s')
      (ha : ∀ t task, a ≠ .schedule t task := by simp) : Step c s (.run a) s'
  | schedule {s : State Unit Unit} {t : Tid} (fc : FiberOrCb) (threadId : Option Tid) : s.User c t →
      Step c s (.schedule t fc threadId) (s.schedule t (fc.task threadId))
  | tickle {s : State Unit Unit} {t : Tid} : (s.th t).tickle = .check → Step c s (.tickle t) (s.tickles t .no)
  /-- One turn of `while (!stopping()) yield()`. -/
  | idle {s : State Unit Unit} {t : Tid} : s.At t (.idle ()) →
      Step c s (.idle t) (s.set t { s.th t with pc := .back, idleTerm := stopping s })

abbrev Reach (c : Config) : State Unit Unit → Prop := Lts.Reach Start (Step c)
abbrev Run (c : Config) : State Unit Unit → List (Act × State Unit Unit) → Prop := Lts.Run (Step c)

/-- A step is one of `Scheduler::run`, or of the base class. -/
theorem Step.split {c : Config} {s s' : State Unit Unit} {a : Act} (h : Step c s a s') :
    (∃ b, RunStep c () s b s') ∨ (∃ t, a = .tickle t ∧ s' = s.tickles t .no) ∨
      ∃ t, a = .idle t ∧ s.At t (.idle ()) ∧ s' = s.set t { s.th t with pc := .back, idleTerm := stopping s } := by
  cases h with
  | run h _ => exact .inl ⟨_, h⟩
  | schedule fc pin hu => exact .inl ⟨_, .schedule _ hu⟩
  | tickle _ => exact .inr (.inl ⟨_, rfl, rfl⟩)
  | idle hat => exact .inr (.inr ⟨_, rfl, hat, rfl⟩)

/-- Nothing is left to do, and nobody can add anything. -/
structure Ended (s : State Unit Unit) : Prop where
  stopping : s.m_stopping = true
  m_tasks : s.m_tasks = []
  active : s.m_activeThreadCount = 0

structure Inv (c : Config) (s : State Unit Unit) : Prop where
  run : Scheduler.Inv c s
  ended : ∀ t, (s.th t).idleTerm = true → Ended s
  left : ∀ t, (s.th t).pc = .left → (s.th t).idleTerm = true

theorem start_inv {c : Config} {s : State Unit Unit} (h : Start s) : Inv c s :=
  ⟨h.inv, fun t ht => by simp [h.outside t] at ht, fun t ht => by simp [h.outside t] at ht⟩

/-- A thread inside a task is counted. -/
theorem Ended.not_active {c : Config} {s : State Unit Unit} (h : Ended s) (hi : Scheduler.Inv c s) (t : Tid) :
    (s.th t).pc.active = false := by
  by_cases ht : t ∈ c.threads
  · exact countOn_eq_zero.mp (hi.active.symm.trans h.active) t ht
  · have hpc : (s.th t).pc = .outside := by
      by_contra hne; exact ht (hi.members t hne)
    rw [hpc]; rfl

/-- Once ended, the scheduler stays so. -/
theorem run_ended {c : Config} (hl : c.late = false) {s s' : State Unit Unit} {a : RunAct}
    (h : RunStep c () s a s') (hi : Scheduler.Inv c s) (he : Ended s) : Ended s' := by
  cases h with
  | @dequeue t hat =>
    rcases dequeue_cases s t with ⟨x, pre, post, k, hq, -⟩ | ⟨k, -, hd⟩
    · rw [he.m_tasks] at hq; simp at hq
    · rw [hd]; exact ⟨he.stopping, he.m_tasks, he.active⟩
  | decr hat => exact ⟨he.stopping, he.m_tasks, by simp [he.active]⟩
  | @schedule t task hat =>
    rcases hat with ⟨x, hx, -⟩ | ⟨-, hlate⟩
    · have := he.not_active hi t
      rw [hx] at this; cases this
    · rw [hl, he.stopping] at hlate; simp at hlate
  | stop _ => exact ⟨rfl, he.m_tasks, he.active⟩
  | _ => exact ⟨he.stopping, he.m_tasks, he.active⟩

theorem step_inv {c : Config} (hl : c.late = false) {s s' : State Unit Unit} {a : Act} (hi : Inv c s)
    (h : Step c s a s') : Inv c s' := by
  rcases h.split with ⟨b, h⟩ | ⟨t, -, rfl⟩ | ⟨t, -, hat, rfl⟩
  · refine ⟨h.inv hi.run, ?_, ?_⟩
    · intro t ht
      rw [h.idleTerm] at ht
      exact run_ended hl h hi.run (hi.ended t ht)
    · intro t ht
      rw [h.idleTerm]
      exact (h.left ht).elim (hi.left t) id
  · refine ⟨hi.run.tickles t .no, ?_, ?_⟩
    · intro u hu
      rw [tickles_idleTerm] at hu
      exact ⟨(hi.ended u hu).stopping, (hi.ended u hu).m_tasks, (hi.ended u hu).active⟩
    · intro u hu
      rw [tickles_pc] at hu
      rw [tickles_idleTerm]; exact hi.left u hu
  · have ht : t ∈ c.threads := hi.run.members t (by rw [hat.1]; simp)
    refine ⟨hi.run.move rfl rfl rfl rfl rfl rfl (by rw [hat.1]; rfl) (by rw [hat.1]; rfl) fun _ => ht,
      ?_, ?_⟩
    · intro u hu
      have he : Ended s := by
        rw [set_th] at hu
        split at hu
        · simp only [stopping, Bool.and_eq_true, List.isEmpty_iff, beq_iff_eq] at hu
          exact ⟨hu.1.1, hu.1.2, hu.2⟩
        · exact hi.ended u hu
      exact ⟨he.stopping, he.m_tasks, he.active⟩
    · intro u
      exact set_keeps (fun _ x => x.pc = .left → x.idleTerm = true) (hi.left u) fun _ h => by cases h

theorem inv {c : Config} (hl : c.late = false) {s : State Unit Unit} (h : Reach c s) : Inv c s :=
  h.inv (fun _ => start_inv) fun _ _ _ hi hst => step_inv hl hi hst

/-! ## What was handed in -/

/-- The calls of `schedule` in a run. -/
def submissions : List (Act × State Unit Unit) → List (FiberOrCb × Option Tid)
  | [] => []
  | (.schedule _ fc threadId, _) :: tr => (fc, threadId) :: submissions tr
  | _ :: tr => submissions tr

/-- What `scheduleNoLock` queues of a call. -/
def queuedBy (x : FiberOrCb × Option Tid) : List ScheduleTask :=
  if (x.1.task x.2).nonEmpty then [x.1.task x.2] else []

/-- The tasks that were queued, dequeued or not. -/
def handled (s : State Unit Unit) : List ScheduleTask := s.dequeued.map (·.1.task) ++ s.m_tasks.map (·.task)

theorem handled_schedule (s : State Unit Unit) (t : Tid) (x : FiberOrCb × Option Tid) :
    handled (s.schedule t (x.1.task x.2)) = handled s ++ queuedBy x := by
  unfold handled queuedBy
  rw [schedule_dequeued, schedule_m_tasks]
  split
  · simp
  · simp

/-- Only `schedule` adds to them. -/
theorem run_handled {c : Config} {s s' : State Unit Unit} {a : RunAct} (ha : ∀ t task, a ≠ .schedule t task)
    (h : RunStep c () s a s') : (handled s').Perm (handled s) := by
  cases h with
  | @dequeue t hat =>
    rcases dequeue_cases s t with ⟨x, pre, post, k, hq, -, -, -, hd⟩ | ⟨k, -, hd⟩
    · rw [hd]
      unfold handled
      rw [hq]
      simp only [List.map_append, List.map_cons, List.map_nil, List.append_assoc, List.singleton_append]
      exact (List.perm_middle.symm).append_left _
    · rw [hd]
      exact .refl _
  | schedule task _ => exact absurd rfl (ha _ task)
  | _ => exact .refl _

theorem handled_run {c : Config} {s : State Unit Unit} {tr : List (Act × State Unit Unit)} (h : Run c s tr) :
    (handled (Lts.final s tr)).Perm (handled s ++ (submissions tr).flatMap queuedBy) := by
  induction h with
  | nil => simp [Lts.final, submissions]
  | @cons s s' a tr hst _ ih =>
    cases hst with
    | run hst ha => exact ih.trans ((run_handled ha hst).append_right _)
    | schedule fc pin _ =>
      rw [handled_schedule s _ (fc, pin), List.append_assoc] at ih
      exact ih
    | tickle _ => exact ih
    | idle _ => exact ih

/-- What is queued of a list of calls is what they mean exactly when none hands in the
    address of a pointer. -/
theorem queuedBy_perm_iff (l : List (FiberOrCb × Option Tid)) :
    (l.flatMap queuedBy).Perm (l.map fun x => x.1.wanted x.2) ↔ ∀ x ∈ l, x.1.isPtr = false := by
  have hle : ∀ l : List (FiberOrCb × Option Tid), (l.flatMap queuedBy).length ≤ l.length := by
    intro l
    induction l with
    | nil => simp
    | cons x l ih =>
      have hx : (queuedBy x).length ≤ 1 := by unfold queuedBy; split <;> simp
      simp only [List.flatMap_cons, List.length_append, List.length_cons]
      omega
  induction l with
  | nil => simp
  | cons x l ih =>
    simp only [List.flatMap_cons, List.map_cons, List.forall_mem_cons]
    rcases x.1.task_cases x.2 with ⟨hp, he⟩ | ⟨hp, he, hw⟩
    · have hq : queuedBy x = [] := by simp [queuedBy, he]
      rw [hq, List.nil_append, hp]
      constructor
      · intro h
        have := h.length_eq
        have := hle l
        simp only [List.length_cons, List.length_map] at *
        omega
      · intro h
        cases h.1
    · have hq : queuedBy x = [x.1.wanted x.2] := by unfold queuedBy; rw [if_pos he, hw]
      rw [hq, List.singleton_append, List.perm_cons]
      exact ih.trans (by simp [hp])

/-! ## Every task is started once -/

/-- A dequeue takes the oldest task its thread may run; a task is dequeued and started at
    most once, by a thread that may run it; the active count is the number of threads
    between a dequeue and its decrement; and once every thread has left, what was started
    is what was handed in, each as often, with nothing queued and nothing active. -/
structure StartedOnce (c : Config) (s : State Unit Unit) (calls : List (FiberOrCb × Option Tid)) : Prop where
  first : ∀ t s' x, Step c s (.run (.dequeue t)) s' → (s'.th t).pc = .start x →
    x ∈ s.m_tasks ∧ x.eligible t = true ∧ ∀ y ∈ s.m_tasks, y.eligible t = true → x.number ≤ y.number
  dequeuedOnce : (s.dequeued.map (·.1.number)).Nodup
  startedOnce : (s.started.map (·.1.number)).Nodup ∧ ∀ y ∈ s.started, y ∈ s.dequeued
  pinned : ∀ y ∈ s.dequeued, y.1.eligible y.2 = true
  active : s.m_activeThreadCount = countOn c.threads (·.pc.active) s.th
  ended : (∀ t ∈ c.threads, (s.th t).pc = .left) → s.m_stopping = true ∧ s.m_tasks = [] ∧
    s.m_activeThreadCount = 0 ∧ (∀ n < s.submitted, (s.started.map (·.1.number)).count n = 1) ∧
    (s.started.map (·.1.task)).Perm (calls.map fun x => x.1.wanted x.2)

/-- Once every thread has left, all that was dequeued was started. -/
theorem Inv.all_left {c : Config} {s : State Unit Unit} (hi : Inv c s) (hall : ∀ t ∈ c.threads, (s.th t).pc = .left) :
    Ended s ∧ (∀ t, (s.th t).pc.held = none) ∧ (s.started.map (·.1.task)).Perm (handled s) := by
  obtain ⟨t, ht⟩ := c.nonempty
  have he := hi.ended t (hi.left t (hall t ht))
  have hno : ∀ u, (s.th u).pc.held = none := by
    intro u
    have hact := he.not_active hi.run u
    cases hpc : (s.th u).pc with
    | start x => rw [hpc] at hact; cases hact
    | _ => rfl
  refine ⟨he, hno, ?_⟩
  have hnd : s.dequeued.Nodup := (List.nodup_append.mp hi.run.numbers_nodup).1.of_map
  have hperm : s.started.Perm s.dequeued := by
    refine (List.perm_ext_iff_of_nodup hi.run.startedOnce hnd).mpr fun y => ⟨hi.run.startedSub y, fun hy => ?_⟩
    rcases hi.run.kept y hy with h | h
    · exact h
    · rw [hno] at h; cases h
  unfold handled
  rw [he.m_tasks, List.map_nil, List.append_nil]
  exact hperm.map _

/-- In every run in which other threads schedule only before `stop`, every task handed in
    is started once as it should, unless all threads have left and a task was handed in by
    the address of a pointer. -/
theorem tasks_started_iff {c : Config} (hl : c.late = false) {s₀ : State Unit Unit} (h0 : Start s₀)
    {tr : List (Act × State Unit Unit)} (h : Run c s₀ tr) :
    StartedOnce c (Lts.final s₀ tr) (submissions tr) ↔
      ((∀ t ∈ c.threads, ((Lts.final s₀ tr).th t).pc = .left) → ∀ x ∈ submissions tr, x.1.isPtr = false) := by
  have hi := inv hl (h.reach (.init h0))
  have hhandled := handled_run h
  rw [show handled s₀ = [] by simp [handled, h0.dequeued, h0.m_tasks], List.nil_append] at hhandled
  generalize Lts.final s₀ tr = s at hi hhandled
  constructor
  · intro hs hall
    obtain ⟨-, -, hperm⟩ := hi.all_left hall
    obtain ⟨-, -, -, -, hwanted⟩ := hs.ended hall
    exact (queuedBy_perm_iff _).mp ((hperm.trans hhandled).symm.trans hwanted)
  · intro hptr
    refine ⟨?_, (List.nodup_append.mp hi.run.numbers_nodup).1, ⟨hi.run.started_numbers, hi.run.startedSub⟩,
      hi.run.eligible, hi.run.active, ?_⟩
    · intro t s' x hst hx
      cases hst with
      | run hst _ => cases hst with
        | dequeue hat => exact dequeue_first hi.run hx
    · intro hall
      obtain ⟨he, hno, hperm⟩ := hi.all_left hall
      exact ⟨he.stopping, he.m_tasks, he.active, fun n hn => hi.run.all_started he.m_tasks hno hn,
        (hperm.trans hhandled).trans ((queuedBy_perm_iff _).mpr (hptr hall))⟩

/-! ## Runs -/

/-- Thread 9 schedules a callback pinned to thread 2, and a fiber; thread 1 skips the one
    and runs the other, thread 2 runs the callback; thread 8 stops the scheduler, and both
    threads leave. -/
theorem twoThreads_run : ∃ tr, Run twoThreads (State.empty ()) tr ∧
    (∀ t ∈ twoThreads.threads, ((Lts.final (State.empty ()) tr).th t).pc = .left) ∧
    submissions tr = [(.cb 7, some 2), (.fiber 3, none)] := by
  refine ⟨_, .cons (.schedule (t := 9) (.cb 7) (some 2) (.inr ⟨⟨rfl, rfl⟩, .inr rfl⟩)) <|
    .cons (.tickle (t := 9) rfl) <|
    .cons (.schedule (t := 9) (.fiber 3) none (.inr ⟨⟨rfl, rfl⟩, .inr rfl⟩)) <|
    .cons (.run (.enter (t := 1) ⟨rfl, rfl⟩ (by simp [twoThreads]) (by simp [twoThreads]))) <|
    .cons (.run (.dequeue (t := 1) ⟨rfl, rfl⟩)) <| .cons (.tickle (t := 1) rfl) <|
    .cons (.run (.resume (t := 1) ⟨rfl, rfl⟩)) <| .cons (.run (.finish (t := 1) ⟨rfl, rfl⟩)) <|
    .cons (.run (.decr (t := 1) ⟨rfl, rfl⟩)) <|
    .cons (.run (.enter (t := 2) ⟨rfl, rfl⟩ (by simp [twoThreads]) (by simp [twoThreads]))) <|
    .cons (.run (.dequeue (t := 2) ⟨rfl, rfl⟩)) <| .cons (.run (.resume (t := 2) ⟨rfl, rfl⟩)) <|
    .cons (.run (.finish (t := 2) ⟨rfl, rfl⟩)) <| .cons (.run (.decr (t := 2) ⟨rfl, rfl⟩)) <|
    .cons (.run (.stop (t := 8) ⟨rfl, rfl⟩)) <|
    .cons (.run (.dequeue (t := 1) ⟨rfl, rfl⟩)) <| .cons (.run (.goIdle (t := 1) ⟨rfl, rfl⟩ rfl)) <|
    .cons (.idle (t := 1) ⟨rfl, rfl⟩) <| .cons (.run (.back (t := 1) ⟨rfl, rfl⟩)) <|
    .cons (.run (.dequeue (t := 1) ⟨rfl, rfl⟩)) <| .cons (.run (.leave (t := 1) ⟨rfl, rfl⟩ rfl)) <|
    .cons (.run (.dequeue (t := 2) ⟨rfl, rfl⟩)) <| .cons (.run (.goIdle (t := 2) ⟨rfl, rfl⟩ rfl)) <|
    .cons (.idle (t := 2) ⟨rfl, rfl⟩) <| .cons (.run (.back (t := 2) ⟨rfl, rfl⟩)) <|
    .cons (.run (.dequeue (t := 2) ⟨rfl, rfl⟩)) <| .cons (.run (.leave (t := 2) ⟨rfl, rfl⟩ rfl)) <|
    .nil _, ?_, rfl⟩
  intro t ht
  simp only [twoThreads, Finset.mem_insert, Finset.mem_singleton] at ht
  rcases ht with rfl | rfl <;> rfl

theorem tasks_started_iff_twoThreads : ∃ tr, Run twoThreads (State.empty ()) tr ∧
    (∀ t ∈ twoThreads.threads, ((Lts.final (State.empty ()) tr).th t).pc = .left) ∧
    StartedOnce twoThreads (Lts.final (State.empty ()) tr) [(.cb 7, some 2), (.fiber 3, none)] := by
  obtain ⟨tr, hrun, hleft, hsub⟩ := twoThreads_run
  refine ⟨tr, hrun, hleft, hsub ▸ (tasks_started_iff rfl (empty_start ()) hrun).mpr fun _ => ?_⟩
  rw [hsub]
  decide

/-- Thread 9 hands in fiber 3 by the address of its pointer, and thread 8 stops the
    scheduler: its thread leaves, and nothing was started. -/
theorem fiber_ptr_dropped : ∃ tr, Run oneThread (State.empty ()) tr ∧ submissions tr = [(.fiberPtr 3, none)] ∧
    (∀ t ∈ oneThread.threads, ((Lts.final (State.empty ()) tr).th t).pc = .left) ∧
    (Lts.final (State.empty ()) tr).started = [] ∧
    ¬ StartedOnce oneThread (Lts.final (State.empty ()) tr) (submissions tr) := by
  have hrun : ∃ tr, Run oneThread (State.empty ()) tr ∧ submissions tr = [(.fiberPtr 3, none)] ∧
      (∀ t ∈ oneThread.threads, ((Lts.final (State.empty ()) tr).th t).pc = .left) ∧
      (Lts.final (State.empty ()) tr).started = [] := by
    refine ⟨_, .cons (.schedule (t := 9) (.fiberPtr 3) none (.inr ⟨⟨rfl, rfl⟩, .inr rfl⟩)) <|
      .cons (.run (.enter (t := 1) ⟨rfl, rfl⟩ (by simp [oneThread]) (by simp [oneThread]))) <|
      .cons (.run (.stop (t := 8) ⟨rfl, rfl⟩)) <|
      .cons (.run (.dequeue (t := 1) ⟨rfl, rfl⟩)) <| .cons (.run (.goIdle (t := 1) ⟨rfl, rfl⟩ rfl)) <|
      .cons (.idle (t := 1) ⟨rfl, rfl⟩) <| .cons (.run (.back (t := 1) ⟨rfl, rfl⟩)) <|
      .cons (.run (.dequeue (t := 1) ⟨rfl, rfl⟩)) <|
      .cons (.run (.leave (t := 1) ⟨rfl, rfl⟩ rfl)) <| .nil _, rfl, ?_, rfl⟩
    intro t ht
    rw [oneThread, Finset.mem_singleton] at ht
    subst ht; rfl
  obtain ⟨tr, hr, hsub, hleft, hnone⟩ := hrun
  refine ⟨tr, hr, hsub, hleft, hnone, fun hs => ?_⟩
  obtain ⟨-, -, -, -, hperm⟩ := hs.ended hleft
  rw [hsub, hnone] at hperm
  exact absurd hperm.length_eq (by decide)

end Sylar.Scheduler.Base
