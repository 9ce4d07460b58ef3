/-
  Sylar.Hook.Call — one hooked socket call (sylar/hook.cpp): `do_io`, which every read,
  write and accept wrapper is, and `connect_with_timeout`, with all that may happen
  meanwhile.

  Actors. The fiber that makes the call; the kernel, which answers each underlying call,
  epoll_ctl and getsockopt as it likes; the timer manager, which pops the call's timer
  once it expired and runs its callback later; every other thread, which may do any
  operation on the event table (`IOManager.Op`, no registration of this fiber) or
  schedule the fiber at any time. `other (.grow _)` is also the call's own
  `contextResize` (see `Sylar.IOManager.Contexts`).

  `Step` takes the call from `start` to `ret`, where it ends. A call that succeeds leaves
  errno as it was. `answered`, `added`, `fired` and `reported` record what the kernel
  said: the last answer of the underlying call, of addEvent, that a timer of the call
  expired, that epoll reported the descriptor writable.
-/

import Sylar.IOManager.EventsProofs

namespace Sylar.Hook

open Sylar

/-! ## Descriptors and wrappers -/

abbrev Errno := Int

def EINTR : Errno := 4
def EBADF : Errno := 9
def EAGAIN : Errno := 11
def ETIMEDOUT : Errno := 110
def EINPROGRESS : Errno := 115

/-- `std::numeric_limits<uint64_t>::max()`: no timeout. -/
def noTimeout : UInt64 := 0xFFFFFFFFFFFFFFFF

inductive SockOpt where
  | SO_RCVTIMEO
  | SO_SNDTIMEO
  deriving DecidableEq, Repr

structure FdCtx where
  m_isSocket : Bool
  m_userNonBlock : Bool
  m_isClosed : Bool
  m_recvTimeout : UInt64
  m_sendTimeout : UInt64
  deriving DecidableEq

def FdCtx.getTimeout (ctx : FdCtx) : SockOpt → UInt64
  | .SO_RCVTIMEO => ctx.m_recvTimeout
  | .SO_SNDTIMEO => ctx.m_sendTimeout

/-- What a wrapper hands to `do_io`: `hook_func_name`, `event`, `timeoutSo`. -/
structure Wrapper where
  hook_func_name : String
  event : Event
  timeoutSo : SockOpt
  deriving DecidableEq

namespace Wrapper

def accept : Wrapper := ⟨"accept", .READ, .SO_RCVTIMEO⟩
def read : Wrapper := ⟨"read", .READ, .SO_RCVTIMEO⟩
def readv : Wrapper := ⟨"readv", .READ, .SO_RCVTIMEO⟩
def recv : Wrapper := ⟨"recv", .READ, .SO_RCVTIMEO⟩
def recvfrom : Wrapper := ⟨"recvfrom", .READ, .SO_RCVTIMEO⟩
def recvmsg : Wrapper := ⟨"recvmsg", .READ, .SO_RCVTIMEO⟩
def write : Wrapper := ⟨"write", .WRITE, .SO_SNDTIMEO⟩
def writev : Wrapper := ⟨"writev", .WRITE, .SO_SNDTIMEO⟩
def send : Wrapper := ⟨"send", .WRITE, .SO_SNDTIMEO⟩
def sendto : Wrapper := ⟨"sendto", .WRITE, .SO_SNDTIMEO⟩
def sendmsg : Wrapper := ⟨"sendmsg", .WRITE, .SO_SNDTIMEO⟩

def all : List Wrapper := [accept, read, readv, recv, recvfrom, recvmsg, write, writev, send, sendto, sendmsg]

/-- Each wrapper waits for one event, under the timeout of that direction. -/
theorem event_timeoutSo : ∀ w ∈ all, (w.event = .READ ∧ w.timeoutSo = .SO_RCVTIMEO) ∨
    (w.event = .WRITE ∧ w.timeoutSo = .SO_SNDTIMEO) := by decide

end Wrapper

/-- The two functions that wait. `connect` is `connect_with_timeout` with
    `s_connect_timeout`. -/
inductive Func where
  | do_io (w : Wrapper)
  | connect_with_timeout (timeoutMs : UInt64)
  deriving DecidableEq

/-- A call: which function, on what, by which fiber; the thread's `t_hook_enable` and
    what `FdMgr` holds for the descriptor. -/
structure Params where
  func : Func
  fd : Nat
  t_hook_enable : Bool
  ctx : Option FdCtx
  self : Caller

/-- How a call begins: as the original call, refused with EBADF, or with the waiting
    loop and its timeout. -/
inductive Entry where
  | direct
  | badf
  | managed (timeout : UInt64)
  deriving DecidableEq

/-- The checks at the head of `do_io`. -/
def do_io.entry (t_hook_enable : Bool) (ctx : Option FdCtx) (w : Wrapper) : Entry :=
  if !t_hook_enable then .direct
  else match ctx with
    | none => .direct
    | some ctx =>
      if ctx.m_isClosed then .badf
      else if !ctx.m_isSocket || ctx.m_userNonBlock then .direct
      else .managed (ctx.getTimeout w.timeoutSo)

/-- The checks at the head of `connect_with_timeout`. -/
def connect_with_timeout.entry (t_hook_enable : Bool) (ctx : Option FdCtx) (timeoutMs : UInt64) : Entry :=
  if !t_hook_enable then .direct
  else match ctx with
    | none => .badf
    | some ctx =>
      if ctx.m_isClosed then .badf
      else if !ctx.m_isSocket then .direct
      else if ctx.m_userNonBlock then .direct
      else .managed timeoutMs

namespace Params

def entry (p : Params) : Entry :=
  match p.func with
  | .do_io w => do_io.entry p.t_hook_enable p.ctx w
  | .connect_with_timeout timeoutMs => connect_with_timeout.entry p.t_hook_enable p.ctx timeoutMs

def event (p : Params) : Event :=
  match p.func with
  | .do_io w => w.event
  | .connect_with_timeout _ => .WRITE

def timeout (p : Params) : UInt64 :=
  match p.entry with
  | .managed timeout => timeout
  | _ => noTimeout

end Params

/-! ## The state of a call -/

/-- The next thing the call does. -/
inductive Pc where
  | start
  | direct
  | call
  | arm
  | addEvent
  | refused
  | yield
  | asleep
  | resumed
  | getsockopt
  | ret
  deriving DecidableEq, Repr

structure Call where
  pc : Pc
  n : Int
  errno : Errno
  /-- `tInfo->cancelled`. -/
  cancelled : Errno
  /-- The local `timer`, by number. -/
  timer : Option Nat
  /-- The call's timers that are armed, and how many it has made. -/
  timers : List Nat
  made : Nat
  /-- Callbacks of its timers that were popped and have not run. -/
  popped : Nat
  io : IOManager
  soError : Errno
  answered : Option (Int × Errno)
  added : Option Bool
  fired : Bool
  reported : Bool

namespace Call

def returns (s : Call) (n : Int) (errno : Errno) : Call := { s with pc := .ret, n := n, errno := errno }

/-- `if (timer) timer->cancel()`. -/
def cancelTimer (s : Call) : Call :=
  { s with timers := match s.timer with
    | some x => s.timers.erase x
    | none => s.timers }

/-- The head of the function. -/
def enter (p : Params) (s : Call) : Call :=
  match p.entry with
  | .direct => { s with pc := .direct }
  | .badf => s.returns (-1) EBADF
  | .managed _ => { s with pc := .call }

/-- What follows an answer of the underlying call. -/
def onAnswer (p : Params) (s : Call) (n : Int) (errno : Errno) : Call :=
  let s := { s with answered := some (n, errno), errno := errno }
  match p.func with
  | .do_io _ =>
    if n = -1 ∧ errno = EINTR then s
    else if n = -1 ∧ errno = EAGAIN then { s with pc := .arm }
    else s.returns n errno
  | .connect_with_timeout _ =>
    if n = 0 then s.returns 0 errno
    else if n ≠ -1 ∨ errno ≠ EINPROGRESS then s.returns n errno
    else { s with pc := .arm }

/-- `addConditionTimer`, when there is a timeout. -/
def armTimer (p : Params) (s : Call) : Call :=
  if p.timeout ≠ noTimeout then
    { s with timer := some s.made, timers := s.timers ++ [s.made], made := s.made + 1, pc := .addEvent }
  else { s with timer := none, pc := .addEvent }

/-- `int ret = iom->addEvent(..)`: both functions take a `ret` other than 0 for a failure. -/
def onAddEvent (s : Call) (b : Bool) (io : IOManager) (errno : Errno) : Call :=
  let ret : Int := if b then 1 else 0
  { s with io := io, added := some b, errno := if b then s.errno else errno
           pc := if ret ≠ 0 then .refused else .yield }

/-- The branch of a `ret` other than 0. -/
def onRefused (p : Params) (s : Call) : Call :=
  let s := s.cancelTimer
  match p.func with
  | .do_io _ => s.returns (-1) s.errno
  | .connect_with_timeout _ => { s with pc := .getsockopt }

/-- What follows `yield()`. -/
def onResumed (p : Params) (s : Call) : Call :=
  let s := s.cancelTimer
  if s.cancelled ≠ 0 then s.returns (-1) s.cancelled
  else match p.func with
    | .do_io _ => { s with pc := .call }
    | .connect_with_timeout _ => { s with pc := .getsockopt }

/-- The end of `connect_with_timeout`; `ok` is the outcome of getsockopt. -/
def onGetsockopt (s : Call) (ok : Bool) (errno : Errno) : Call :=
  if !ok then s.returns (-1) errno
  else if s.soError = 0 then s.returns 0 s.errno
  else s.returns (-1) s.soError

/-- The timer's callback. -/
def onTimer (p : Params) (s : Call) (ctl : Bool) : Except Abort Call :=
  let s := { s with popped := s.popped - 1 }
  if s.cancelled ≠ 0 then .ok s
  else do
    let (_, io) ← s.io.cancelEvent p.fd p.event ctl
    return { s with cancelled := ETIMEDOUT, io := io }

end Call

/-! ## Steps -/

inductive Act where
  | enter
  | answer (n : Int) (errno : Errno)
  | arm
  | addEvent (ctl : Bool) (errno : Errno)
  | refuse
  | yield
  | wake (errno : Errno)
  | resume
  | getsockopt (ok : Bool) (errno : Errno)
  | other (op : IOManager.Op)
  | expire (timer : Nat)
  | onTimer (ctl : Bool)
  | soError (e : Errno)
  | report
  deriving DecidableEq

/-- An entry of epoll_wait that reports the call's descriptor writable. -/
def reportsWritable (p : Params) (e : EpollEvent) : Bool :=
  e.data == .ptr p.fd && (e.events.epollout || e.events.epollerr || e.events.epollhup)

/-- What other threads may do: not register this fiber, and handle only what epoll_wait
    returned. -/
def Foreign (p : Params) (s : Call) : IOManager.Op → Prop
  | .addEvent self .. => self.fiber ≠ p.self.fiber
  | .idle e _ => reportsWritable p e = true → s.reported = true
  | _ => True

inductive Step (p : Params) : Call → Act → Call → Prop
  | enter {s : Call} : s.pc = .start → Step p s .enter (s.enter p)
  | direct {s : Call} (n : Int) (errno : Errno) : s.pc = .direct →
      Step p s (.answer n errno) ({ s with answered := some (n, errno) }.returns n errno)
  | answer {s : Call} (n : Int) (errno : Errno) : s.pc = .call → Step p s (.answer n errno) (s.onAnswer p n errno)
  | arm {s : Call} : s.pc = .arm → Step p s .arm (s.armTimer p)
  | addEvent {s : Call} {b : Bool} {io : IOManager} (ctl : Bool) (errno : Errno) : s.pc = .addEvent →
      s.io.addEvent p.self p.fd p.event none ctl = .ok (b, io) →
      Step p s (.addEvent ctl errno) (s.onAddEvent b io errno)
  | refuse {s : Call} : s.pc = .refused → Step p s .refuse (s.onRefused p)
  | yield {s : Call} : s.pc = .yield → Step p s .yield { s with pc := .asleep }
  /-- Some thread runs the fiber again; errno is what that thread left there. -/
  | wake {s : Call} (errno : Errno) : s.pc = .asleep → Step p s (.wake errno) { s with pc := .resumed, errno := errno }
  | resume {s : Call} : s.pc = .resumed → Step p s .resume (s.onResumed p)
  | getsockopt {s : Call} (ok : Bool) (errno : Errno) : s.pc = .getsockopt →
      Step p s (.getsockopt ok errno) (s.onGetsockopt ok errno)
  | other {s : Call} {io : IOManager} (op : IOManager.Op) : s.pc ≠ .ret → Foreign p s op → IOManager.Step s.io op io →
      Step p s (.other op) { s with io := io }
  | expire {s : Call} (timer : Nat) : s.pc ≠ .ret → timer ∈ s.timers →
      Step p s (.expire timer) { s with timers := s.timers.erase timer, popped := s.popped + 1, fired := true }
  | onTimer {s s' : Call} (ctl : Bool) : s.pc ≠ .ret → s.popped ≠ 0 → s.onTimer p ctl = .ok s' →
      Step p s (.onTimer ctl) s'
  | soError {s : Call} (e : Errno) : s.pc ≠ .ret → Step p s (.soError e) { s with soError := e }
  | report {s : Call} : s.pc ≠ .ret → Step p s .report { s with reported := true }

/-- The call begins on a table in use, made by a fiber that a scheduler runs. -/
structure Start (p : Params) (s : Call) : Prop where
  pc : s.pc = .start
  cancelled : s.cancelled = 0
  timers : s.timers = []
  popped : s.popped = 0
  answered : s.answered = none
  added : s.added = none
  fired : s.fired = false
  reported : s.reported = false
  io : IOManager.Reach s.io
  scheduler : p.self.scheduler.isSome = true
  running : p.self.state = .RUNNING

abbrev Run (p : Params) : Call → List (Act × Call) → Prop := Lts.Run (Step p)

end Sylar.Hook
