/-
  Sylar.IOManager.Events — the event table of `IOManager` (sylar/iomanager.cpp): the
  bodies of `addEvent`, `delEvent`, `cancelEvent`, `cancelAll` under the mutex of an
  `FdContext`, and what `idle` does with one entry that epoll_wait returned.

  The table is `m_fdContexts`, indexed by descriptor. An `Event` is a set of the bits
  READ = EPOLLIN = 0x1 and WRITE = EPOLLOUT = 0x4, and of the bits of an epoll_event the
  code looks at EPOLLIN, EPOLLOUT, EPOLLERR, EPOLLHUP and EPOLLET. `event.data` holds the
  read end of the tickle pipe or a pointer to an `FdContext`, here its index.
  epoll_ctl may fail for any reason and then changes nothing (`ctl = false`).
  `scheduled` lists what was handed to `Scheduler::schedule`, with the scheduler.
  m_pendingEventCount is an integer: that it never goes below zero is proved, not assumed.

  Each operation returns the new table and its result, or the assertion (or undefined
  access) that ends the run (`Abort`).
-/

import Sylar.Scheduler.Task
import Mathlib.Algebra.Ring.Int.Defs

namespace Sylar

/-! ## Events -/

/-- `IOManager::Event`: a set of the two bits. -/
structure Event where
  read : Bool
  write : Bool
  deriving DecidableEq, Repr

namespace Event

def NONE : Event := ⟨false, false⟩
def READ : Event := ⟨true, false⟩
def WRITE : Event := ⟨false, true⟩

instance : AndOp Event := ⟨fun a b => ⟨a.read && b.read, a.write && b.write⟩⟩
instance : OrOp Event := ⟨fun a b => ⟨a.read || b.read, a.write || b.write⟩⟩
instance : Complement Event := ⟨fun a => ⟨!a.read, !a.write⟩⟩

/-- An event set as a condition: not zero. -/
def any (e : Event) : Bool := e.read || e.write

end Event

/-- `epoll_event::events`. -/
structure EpollBits where
  epollin : Bool
  epollout : Bool
  epollerr : Bool
  epollhup : Bool
  epollet : Bool
  deriving DecidableEq, Repr

/-- `epEvent.events = NONE`. -/
def EpollBits.NONE : EpollBits := ⟨false, false, false, false, false⟩

/-- `EPOLLET | event`. -/
def Event.edgeTriggered (e : Event) : EpollBits := ⟨e.read, e.write, false, false, true⟩

/-- `epoll_event::data`: the tickle pipe, or the `FdContext` at an index. -/
inductive EpollData where
  | tickle
  | ptr (i : Nat)
  deriving DecidableEq, Repr

structure EpollEvent where
  events : EpollBits
  data : EpollData
  deriving DecidableEq, Repr

inductive CtlOp where
  | EPOLL_CTL_ADD
  | EPOLL_CTL_MOD
  | EPOLL_CTL_DEL
  deriving DecidableEq, Repr

/-- The kernel's interest list after a call of epoll_ctl that succeeded. -/
def epollCtl (epoll : Nat → Option EpollEvent) (op : CtlOp) (fd : Nat) (event : EpollEvent) :
    Nat → Option EpollEvent :=
  fun k => if k = fd then (match op with | .EPOLL_CTL_DEL => none | _ => some event) else epoll k

/-! ## Descriptor contexts -/

/-- `FdContext::EventContext`. -/
structure EventContext where
  m_scheduler : Option Nat
  m_fiber : Option FiberId
  m_cb : Option CbId
  deriving DecidableEq, Repr

/-- `resetEventContext`. -/
def EventContext.reset : EventContext := ⟨none, none, none⟩

/-- What `triggerEvent` schedules: the callback when there is one, else the fiber. -/
def EventContext.task (ctx : EventContext) : ScheduleTask :=
  match ctx.m_cb with
  | some c => .ofCb c none
  | none => ⟨ctx.m_fiber, none, none⟩

structure FdContext where
  m_readCtx : EventContext
  m_writeCtx : EventContext
  m_fd : Nat
  m_events : Event
  deriving DecidableEq, Repr

/-- The assertions of the code, and the accesses it must not make. -/
inductive Abort where
  | addEventArmed
  | getEventContext
  | contextInUse
  | fiberNotRunning
  | triggerUnarmed
  | nullScheduler
  | cancelAllLeft
  | outOfBounds
  deriving DecidableEq, Repr

/-- `SYLAR_ASSERT`: the run ends when the condition fails. -/
def SYLAR_ASSERT (p : Bool) (a : Abort) : Except Abort Unit := if p then .ok () else .error a

namespace FdContext

def fresh (fd : Nat) : FdContext := ⟨.reset, .reset, fd, .NONE⟩

def getEventContext (c : FdContext) (event : Event) : Except Abort EventContext :=
  if event = .READ then .ok c.m_readCtx
  else if event = .WRITE then .ok c.m_writeCtx
  else .error .getEventContext

/-- Write through the reference that `getEventContext` returned. -/
def setEventContext (c : FdContext) (event : Event) (ctx : EventContext) : FdContext :=
  if event = .READ then { c with m_readCtx := ctx } else { c with m_writeCtx := ctx }

/-- The context after `triggerEvent`, and what it scheduled where. -/
def triggerEvent (c : FdContext) (event : Event) : Except Abort (FdContext × Nat × ScheduleTask) := do
  SYLAR_ASSERT (c.m_events &&& event).any .triggerUnarmed
  let c := { c with m_events := c.m_events &&& ~~~event }
  let ctx ← c.getEventContext event
  match ctx.m_scheduler with
  | none => throw .nullScheduler
  | some scheduler => return (c.setEventContext event .reset, scheduler, ctx.task)

end FdContext

/-! ## The table -/

/-- `m_fdContexts.resize(size)` and the loop that fills the new entries. -/
def resizeFill {α : Type} (mk : Nat → α) (v : List α) (size : Nat) : List α :=
  let old := v.take size
  old ++ (List.range' old.length (size - old.length)).map mk

structure IOManager where
  m_fdContexts : List FdContext
  m_pendingEventCount : Int
  epoll : Nat → Option EpollEvent
  scheduled : List (Nat × ScheduleTask)

/-- The thread that calls `addEvent`: `Scheduler::GetThis()`, `Fiber::GetThis()` and the
    state of that fiber. -/
structure Caller where
  scheduler : Option Nat
  fiber : FiberId
  state : FiberState
  deriving DecidableEq, Repr

namespace IOManager

/-- `m_fdContexts[fd].get()`. -/
def fdContext (s : IOManager) (fd : Nat) : Except Abort FdContext :=
  match s.m_fdContexts[fd]? with
  | some c => .ok c
  | none => .error .outOfBounds

def setContext (s : IOManager) (fd : Nat) (c : FdContext) : IOManager :=
  { s with m_fdContexts := s.m_fdContexts.set fd c }

def contextResize (s : IOManager) (size : Nat) : IOManager :=
  { s with m_fdContexts := resizeFill FdContext.fresh s.m_fdContexts size }

/-- `addEvent` from line 149 on. -/
def addEvent (s : IOManager) (self : Caller) (fd : Nat) (event : Event) (cb : Option CbId) (ctl : Bool) :
    Except Abort (Bool × IOManager) := do
  let c ← s.fdContext fd
  SYLAR_ASSERT (!(c.m_events &&& event).any) .addEventArmed
  let op := if c.m_events.any then CtlOp.EPOLL_CTL_MOD else .EPOLL_CTL_ADD
  let epEvent : EpollEvent := ⟨(c.m_events ||| event).edgeTriggered, .ptr fd⟩
  if !ctl then return (false, s)
  let c := { c with m_events := c.m_events ||| event }
  let ctx ← c.getEventContext event
  SYLAR_ASSERT (ctx == .reset) .contextInUse
  SYLAR_ASSERT (cb.isSome || self.state == .RUNNING) .fiberNotRunning
  let ctx : EventContext :=
    { m_scheduler := self.scheduler, m_fiber := if cb.isSome then none else some self.fiber, m_cb := cb }
  return (true, { s.setContext fd (c.setEventContext event ctx) with
    m_pendingEventCount := s.m_pendingEventCount + 1
    epoll := epollCtl s.epoll op fd epEvent })

/-- `triggerEvent` on the context of `fd`, and `--m_pendingEventCount`. -/
def trigger (s : IOManager) (fd : Nat) (event : Event) : Except Abort IOManager := do
  let c ← s.fdContext fd
  let (c', scheduler, task) ← c.triggerEvent event
  return { s.setContext fd c' with
    m_pendingEventCount := s.m_pendingEventCount - 1
    scheduled := if task.nonEmpty then s.scheduled ++ [(scheduler, task)] else s.scheduled }

def triggerIf (s : IOManager) (p : Bool) (fd : Nat) (event : Event) : Except Abort IOManager :=
  if p then s.trigger fd event else .ok s

/-- What `delEvent` and `cancelEvent` hand to epoll_ctl: the bits that stay. -/
def leave (s : IOManager) (fd : Nat) (left : Event) : IOManager :=
  let op := if left.any then CtlOp.EPOLL_CTL_MOD else .EPOLL_CTL_DEL
  let epEvent : EpollEvent := ⟨left.edgeTriggered, .ptr fd⟩
  { s with epoll := epollCtl s.epoll op fd epEvent }

def delEvent (s : IOManager) (fd : Nat) (event : Event) (ctl : Bool) : Except Abort (Bool × IOManager) := do
  if s.m_fdContexts.length ≤ fd then return (false, s)
  let c ← s.fdContext fd
  if !(c.m_events &&& event).any then return (false, s)
  let new_events := c.m_events &&& ~~~event
  if !ctl then return (false, s)
  let c := { c with m_events := new_events }
  let _ ← c.getEventContext event
  return (true, { (s.leave fd new_events).setContext fd (c.setEventContext event .reset) with
    m_pendingEventCount := s.m_pendingEventCount - 1 })

def cancelEvent (s : IOManager) (fd : Nat) (event : Event) (ctl : Bool) : Except Abort (Bool × IOManager) := do
  if s.m_fdContexts.length ≤ fd then return (false, s)
  let c ← s.fdContext fd
  if !(c.m_events &&& event).any then return (false, s)
  if !ctl then return (false, s)
  let s ← (s.leave fd (c.m_events &&& ~~~event)).trigger fd event
  return (true, s)

def cancelAll (s : IOManager) (fd : Nat) (ctl : Bool) : Except Abort (Bool × IOManager) := do
  if s.m_fdContexts.length ≤ fd then return (false, s)
  let c ← s.fdContext fd
  if !c.m_events.any then return (false, s)
  if !ctl then return (false, s)
  let epEvent : EpollEvent := ⟨.NONE, .ptr fd⟩
  let s := { s with epoll := epollCtl s.epoll .EPOLL_CTL_DEL fd epEvent }
  let s ← s.triggerIf (c.m_events &&& .READ).any fd .READ
  let c ← s.fdContext fd
  let s ← s.triggerIf (c.m_events &&& .WRITE).any fd .WRITE
  let c ← s.fdContext fd
  SYLAR_ASSERT (c.m_events == .NONE) .cancelAllLeft
  return (true, s)

/-! ## One entry of `idle` -/

/-- `realEvents`: what an entry reports, once EPOLLERR and EPOLLHUP stand for every
    armed bit. -/
def realEvents (c : FdContext) (e : EpollBits) : Event :=
  let err := e.epollerr || e.epollhup
  ⟨e.epollin || (err && c.m_events.read), e.epollout || (err && c.m_events.write)⟩

/-- Lines 369-409 for one entry: the table, and what the epoll_ctl call left in `ret`
    (`none` when the entry made no call). -/
def idleEntry (s : IOManager) (e : EpollEvent) (ctl : Bool) : Except Abort (IOManager × Option Int) := do
  match e.data with
  | .tickle => return (s, none)
  | .ptr fd =>
    let c ← s.fdContext fd
    let real := realEvents c e.events
    if !(c.m_events &&& real).any then return (s, none)
    if !ctl then return (s, some (-1))
    let s := s.leave fd (c.m_events &&& ~~~real)
    let s ← s.triggerIf real.read fd .READ
    let s ← s.triggerIf real.write fd .WRITE
    return (s, some 0)

end IOManager

end Sylar
