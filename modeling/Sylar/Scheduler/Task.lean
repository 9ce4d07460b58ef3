/-
  Sylar.Scheduler.Task — the tasks of a scheduler and the scan of its queue
  (sylar/scheduler.h, sylar/scheduler.cpp lines 131-151).

  Fibers, callbacks and threads are known by number. A task holds a fiber or a callback
  and, when pinned, the id of the one thread that may run it (`m_threadId`, `none` for
  -1). The constructor for the address of a fiber's pointer makes an empty task, which
  `scheduleNoLock` drops (`ofFiberPtr`). `scan` is the loop over `m_tasks` in
  `Scheduler::run`, for any kind of entry and any test of who may take it: it skips what
  the thread may not take, takes the first entry it may, and computes `tickle_me`. It is
  `find?` and `eraseP` in one pass, and `tickle_me` says exactly that entries remain
  (`scan_task`, `scan_rest`, `scan_tickleMe`).
-/

namespace Sylar

abbrev FiberId := Nat
abbrev CbId := Nat
abbrev Tid := Nat

/-- `Fiber::State`. -/
inductive FiberState where
  | READY
  | RUNNING
  | TERM
  deriving DecidableEq, Repr

/-- `Scheduler::ScheduleTask`. -/
structure ScheduleTask where
  m_fiber : Option FiberId
  m_cb : Option CbId
  m_threadId : Option Tid
  deriving DecidableEq, Repr

namespace ScheduleTask

def ofFiber (f : FiberId) (threadId : Option Tid) : ScheduleTask := ⟨some f, none, threadId⟩

/-- `ScheduleTask(Fiber::ptr *fiber, int threadId)`: `fiber->swap(*fiber)` swaps the
    caller's pointer with itself, and `m_fiber` stays null. -/
def ofFiberPtr (_fiber : FiberId) (threadId : Option Tid) : ScheduleTask := ⟨none, none, threadId⟩

def ofCb (c : CbId) (threadId : Option Tid) : ScheduleTask := ⟨none, some c, threadId⟩

/-- `task.m_fiber || task.m_cb`. -/
def nonEmpty (x : ScheduleTask) : Bool := x.m_fiber.isSome || x.m_cb.isSome

/-- Not `m_threadId != -1 && m_threadId != GetThreadId()`. -/
def eligible (self : Tid) (x : ScheduleTask) : Bool := x.m_threadId == none || x.m_threadId == some self

theorem eligible_unpinned {x : ScheduleTask} (h : x.m_threadId = none) (t : Tid) : x.eligible t = true := by
  simp [eligible, h]

theorem eligible_iff {x : ScheduleTask} {t : Tid} :
    x.eligible t = true ↔ x.m_threadId = none ∨ x.m_threadId = some t := by
  simp [eligible]

end ScheduleTask

/-- What `schedule` is called with: a pointer to a fiber, the address of one, or a
    callback. -/
inductive FiberOrCb where
  | fiber (f : FiberId)
  | fiberPtr (f : FiberId)
  | cb (c : CbId)
  deriving DecidableEq, Repr

namespace FiberOrCb

/-- `ScheduleTask task{fc, threadId}`, by the constructor for its type. -/
def task (fc : FiberOrCb) (threadId : Option Tid) : ScheduleTask :=
  match fc with
  | .fiber f => .ofFiber f threadId
  | .fiberPtr f => .ofFiberPtr f threadId
  | .cb c => .ofCb c threadId

/-- The task the caller means. -/
def wanted (fc : FiberOrCb) (threadId : Option Tid) : ScheduleTask :=
  match fc with
  | .fiber f | .fiberPtr f => .ofFiber f threadId
  | .cb c => .ofCb c threadId

def isPtr : FiberOrCb → Bool
  | .fiberPtr _ => true
  | _ => false

/-- An address makes an empty task, anything else the task it means. -/
theorem task_cases (fc : FiberOrCb) (threadId : Option Tid) :
    (fc.isPtr = true ∧ (fc.task threadId).nonEmpty = false) ∨
      (fc.isPtr = false ∧ (fc.task threadId).nonEmpty = true ∧ fc.task threadId = fc.wanted threadId) := by
  cases fc with
  | fiber f => exact .inr ⟨rfl, rfl, rfl⟩
  | fiberPtr f => exact .inl ⟨rfl, rfl⟩
  | cb c => exact .inr ⟨rfl, rfl, rfl⟩

end FiberOrCb

/-- A task in the queue, with the number of its submission. -/
structure Entry where
  task : ScheduleTask
  number : Nat
  deriving DecidableEq, Repr

def Entry.eligible (self : Tid) (x : Entry) : Bool := x.task.eligible self

/-- `Scheduler::scheduleNoLock`: the new queue, and whether the caller must tickle. -/
def scheduleNoLock (m_tasks : List Entry) (task : ScheduleTask) (number : Nat) : List Entry × Bool :=
  let need_tickle := m_tasks.isEmpty
  (if task.nonEmpty then m_tasks ++ [⟨task, number⟩] else m_tasks, need_tickle)

/-! ## The scan -/

structure Scan (α : Type) where
  task : Option α
  rest : List α
  tickleMe : Bool

def scan {α : Type} (eligible : α → Bool) : List α → Scan α
  | [] => ⟨none, [], false⟩
  | x :: xs =>
    if eligible x then ⟨some x, xs, !xs.isEmpty⟩
    else
      let r := scan eligible xs
      ⟨r.task, x :: r.rest, true⟩

section
variable {α : Type} (eligible : α → Bool)

theorem scan_task (q : List α) : (scan eligible q).task = q.find? eligible := by
  induction q with
  | nil => rfl
  | cons x xs ih =>
    simp only [scan, List.find?_cons]
    split
    · rename_i h; simp [h]
    · rename_i h; simp [h, ih]

theorem scan_rest (q : List α) : (scan eligible q).rest = q.eraseP eligible := by
  induction q with
  | nil => rfl
  | cons x xs ih =>
    simp only [scan, List.eraseP_cons]
    split
    · rename_i h; simp [h]
    · rename_i h; simp [h, ih]

theorem scan_tickleMe (q : List α) : (scan eligible q).tickleMe = !(scan eligible q).rest.isEmpty := by
  cases q with
  | nil => rfl
  | cons x xs => simp only [scan]; split <;> simp

variable {eligible}

/-- What the scan takes is eligible, and nothing before it is. -/
theorem scan_some {q : List α} {x : α} (h : (scan eligible q).task = some x) :
    ∃ pre post, q = pre ++ x :: post ∧ (scan eligible q).rest = pre ++ post ∧ eligible x = true ∧
      ∀ y ∈ pre, eligible y = false := by
  rw [scan_task] at h
  obtain ⟨hx, pre, post, rfl, hpre⟩ := List.find?_eq_some_iff_append.mp h
  have hpre' : ∀ y ∈ pre, eligible y = false := fun y hy => by simpa using hpre y hy
  refine ⟨pre, post, rfl, ?_, hx, hpre'⟩
  rw [scan_rest, List.eraseP_append_right _ (fun y hy => by simp [hpre' y hy]), List.eraseP_cons_of_pos hx]

/-- Thread 2 skips what is pinned to thread 1, and tickles for it. -/
example : scan (ScheduleTask.eligible 2) [.ofFiber 0 (some 1), .ofFiber 1 none] =
    ⟨some (.ofFiber 1 none), [.ofFiber 0 (some 1)], true⟩ := by rfl

/-- A scan that takes nothing found nothing eligible and leaves the queue as it was. -/
theorem scan_none {q : List α} (h : (scan eligible q).task = none) :
    (scan eligible q).rest = q ∧ ∀ y ∈ q, eligible y = false := by
  rw [scan_task] at h
  have hq : ∀ y ∈ q, eligible y = false := fun y hy => by simpa using List.find?_eq_none.mp h y hy
  exact ⟨by rw [scan_rest, List.eraseP_of_forall_not (fun y hy => by simp [hq y hy])], hq⟩

end

end Sylar
