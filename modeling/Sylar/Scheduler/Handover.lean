/-
  Sylar.Scheduler.Handover — a running fiber publishes itself for wake-up and yields
  (sylar/scheduler.cpp lines 128-170, sylar/fiber.cpp lines 115-143, sylar/hook.cpp
  lines 161-172), for any number of threads, fibers, events and timers.

  Actors. The scheduler threads, each at a `Pc` of `run`; the fibers, each with its
  `m_state` and whether `m_ctx` holds the context it last stopped in (`saved`); the event
  table and the timers, which hold what a wake-up schedules. `yield` is two steps: the
  state becomes READY, then `swapcontext` saves the context. The steps of `epoll_wait`
  and of the clock come at any time: an event schedules its fiber, an expired timer its
  callback, whose run schedules the fiber.

  A step whose assertion fails has no successor: the program aborts there. A fiber is
  scheduled once when it is made; after that it publishes itself, at most once before it
  yields (`published`), and nobody else schedules it. The code does not ask for this: a
  fiber that is scheduled twice is queued twice.

  `Safe` is what the scheduler owes a fiber, `Orderly` the steps that do not publish one
  that is still executing to another thread; that the one gives the other is in
  `Sylar.Scheduler.HandoverProofs`.
-/

import Sylar.Lib.Lts
import Sylar.Scheduler.Task
import Mathlib.Data.Finset.Basic
import Mathlib.Logic.Function.Basic

namespace Sylar.Handover

structure Config where
  threads : Finset Tid
  /-- The fiber a callback schedules, when it is `bind(&schedule, iom, fiber, -1)`. -/
  wakes : CbId → Option FiberId

/-- Where a thread is in `Scheduler::run`, or in the fiber it resumed. -/
inductive Pc where
  | loop
  | start (x : ScheduleTask)
  | running (f : FiberId) (published : Bool)
  /-- In `yield`, between `m_state = READY` and the save of `swapcontext`. -/
  | switching (f : FiberId)
  | callback (cb : CbId)
  deriving DecidableEq

structure State where
  m_tasks : List ScheduleTask
  events : List FiberId
  timers : List CbId
  s_fiber_id : FiberId
  m_state : FiberId → FiberState
  saved : FiberId → Bool
  pc : Tid → Pc

namespace State

def goto (s : State) (t : Tid) (pc : Pc) : State := { s with pc := Function.update s.pc t pc }

def schedule (s : State) (x : ScheduleTask) : State := { s with m_tasks := s.m_tasks ++ [x] }

/-- `t` takes `x`, the task its scan found. -/
def dequeue (s : State) (t : Tid) (x : ScheduleTask) : State :=
  { s with m_tasks := (scan (ScheduleTask.eligible t) s.m_tasks).rest }.goto t (.start x)

def addEvent (s : State) (f : FiberId) : State := { s with events := f :: s.events }

def delEvent (s : State) (f : FiberId) : State := { s with events := s.events.erase f }

def addTimer (s : State) (cb : CbId) : State := { s with timers := cb :: s.timers }

def delTimer (s : State) (cb : CbId) : State := { s with timers := s.timers.erase cb }

def setState (s : State) (f : FiberId) (st : FiberState) : State := { s with m_state := Function.update s.m_state f st }

def setSaved (s : State) (f : FiberId) (b : Bool) : State := { s with saved := Function.update s.saved f b }

/-- A fiber is constructed: READY, its context made. -/
def newFiber (s : State) : State :=
  { (s.setState s.s_fiber_id .READY).setSaved s.s_fiber_id true with s_fiber_id := s.s_fiber_id + 1 }

/-- `Fiber::resume` on `t`, up to the first instruction of the fiber. -/
def resume (s : State) (t : Tid) (f : FiberId) : State :=
  ((s.setState f .RUNNING).setSaved f false).goto t (.running f false)

end State

/-- The fiber is between the switch of its `resume` and the save of its `yield`. -/
def Pc.executes (f : FiberId) : Pc → Bool
  | .running g _ | .switching g => g == f
  | _ => false

/-! ## Steps -/

inductive Act where
  | spawn (pin : Option Tid)
  | submit (cb : CbId) (pin : Option Tid)
  | dequeue (t : Tid)
  | resume (t : Tid)
  | begin (t : Tid)
  | call (t : Tid)
  | schedule (t : Tid) (pin : Option Tid)
  | addEvent (t : Tid)
  | addTimer (t : Tid) (cb : CbId)
  | trigger (f : FiberId)
  | expire (cb : CbId)
  | wake (t : Tid)
  | yield (t : Tid)
  | swap (t : Tid)
  | finish (t : Tid)

inductive Step (c : Config) : State → Act → State → Prop
  /-- Anyone schedules a new fiber. -/
  | spawn {s : State} (pin : Option Tid) : Step c s (.spawn pin) (s.newFiber.schedule (.ofFiber s.s_fiber_id pin))
  /-- Anyone schedules a function. -/
  | submit {s : State} {cb : CbId} (pin : Option Tid) : c.wakes cb = none →
      Step c s (.submit cb pin) (s.schedule (.ofCb cb pin))
  | dequeue {s : State} {t : Tid} {x : ScheduleTask} : t ∈ c.threads → s.pc t = .loop →
      (scan (ScheduleTask.eligible t) s.m_tasks).task = some x → (∀ f, x.m_fiber = some f → s.m_state f = .READY) →
      Step c s (.dequeue t) (s.dequeue t x)
  | resume {s : State} {t : Tid} {x : ScheduleTask} {f : FiberId} : s.pc t = .start x → x.m_fiber = some f →
      s.m_state f = .READY → Step c s (.resume t) (s.resume t f)
  /-- A function runs on a new fiber. -/
  | begin {s : State} {t : Tid} {x : ScheduleTask} {cb : CbId} : s.pc t = .start x → x.m_fiber = none →
      x.m_cb = some cb → c.wakes cb = none → Step c s (.begin t) (s.newFiber.resume t s.s_fiber_id)
  /-- So does a timer's callback; its fiber publishes another, not itself. -/
  | call {s : State} {t : Tid} {x : ScheduleTask} {cb : CbId} {f : FiberId} : s.pc t = .start x → x.m_fiber = none →
      x.m_cb = some cb → c.wakes cb = some f → Step c s (.call t) (s.goto t (.callback cb))
  /-- `Scheduler::schedule(Fiber::GetThis(), pin)`. -/
  | schedule {s : State} {t : Tid} {f : FiberId} (pin : Option Tid) : s.pc t = .running f false →
      Step c s (.schedule t pin) ((s.goto t (.running f true)).schedule (.ofFiber f pin))
  /-- `IOManager::addEvent` without a callback. -/
  | addEvent {s : State} {t : Tid} {f : FiberId} : s.pc t = .running f false →
      Step c s (.addEvent t) ((s.goto t (.running f true)).addEvent f)
  /-- `addTimer` with `bind(&schedule, iom, Fiber::GetThis(), -1)`. -/
  | addTimer {s : State} {t : Tid} {f : FiberId} {cb : CbId} : s.pc t = .running f false → c.wakes cb = some f →
      Step c s (.addTimer t cb) ((s.goto t (.running f true)).addTimer cb)
  /-- `triggerEvent`, from `idle`, `cancelEvent` or `cancelAll`. -/
  | trigger {s : State} {f : FiberId} : f ∈ s.events →
      Step c s (.trigger f) ((s.delEvent f).schedule (.ofFiber f none))
  /-- `idle` schedules an expired timer's callback. -/
  | expire {s : State} {cb : CbId} : cb ∈ s.timers →
      Step c s (.expire cb) ((s.delTimer cb).schedule (.ofCb cb none))
  | wake {s : State} {t : Tid} {cb : CbId} {f : FiberId} : s.pc t = .callback cb → c.wakes cb = some f →
      Step c s (.wake t) ((s.goto t .loop).schedule (.ofFiber f none))
  | yield {s : State} {t : Tid} {f : FiberId} {p : Bool} : s.pc t = .running f p → s.m_state f = .RUNNING →
      Step c s (.yield t) ((s.setState f .READY).goto t (.switching f))
  | swap {s : State} {t : Tid} {f : FiberId} : s.pc t = .switching f →
      Step c s (.swap t) ((s.setSaved f true).goto t .loop)
  /-- The end of `MainFunc`. -/
  | finish {s : State} {t : Tid} {f : FiberId} : s.pc t = .running f false →
      Step c s (.finish t) ((s.setState f .TERM).goto t .loop)

/-- Nothing queued, registered or armed, no thread past the top of its loop. -/
structure Start (s : State) : Prop where
  m_tasks : s.m_tasks = []
  events : s.events = []
  timers : s.timers = []
  loop : ∀ t, s.pc t = .loop

abbrev Reach (c : Config) : State → Prop := Lts.Reach Start (Step c)

/-- What the scheduler owes every fiber. -/
structure Safe (c : Config) (s : State) : Prop where
  /-- The READY assertion of `run` holds of what the next dequeue of a thread takes. -/
  ready : ∀ t ∈ c.threads, s.pc t = .loop → ∀ x, (scan (ScheduleTask.eligible t) s.m_tasks).task = some x →
    ∀ f, x.m_fiber = some f → s.m_state f = .READY
  /-- What a thread is about to resume has its context saved. -/
  saved : ∀ t x f, s.pc t = .start x → x.m_fiber = some f → s.saved f = true
  /-- One thread executes a fiber. -/
  once : ∀ t u f, (s.pc t).executes f = true → (s.pc u).executes f = true → t = u

/-- Only the thread executing `f`, if one does, may take a task for `f` pinned to `pin`. -/
def Confined (c : Config) (s : State) (f : FiberId) (pin : Option Tid) : Prop :=
  ∀ t, (s.pc t).executes f = true → ∀ u ∈ c.threads, (ScheduleTask.ofFiber f pin).eligible u = true → u = t

/-- What wakes a fiber while it is executing is confined to its thread. -/
def Orderly (c : Config) (s : State) : Act → Prop
  | .schedule t pin => ∀ f p, s.pc t = .running f p → Confined c s f pin
  | .trigger f => Confined c s f none
  | .wake t => ∀ cb f, s.pc t = .callback cb → c.wakes cb = some f → Confined c s f none
  | _ => True

end Sylar.Handover
