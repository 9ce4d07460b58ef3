/-
  Sylar.Timer.Manager — `TimerManager` and `Timer` (sylar/timer.cpp).

  Timers are known by the number of their creation (`TimerId`); `timer` is the object of
  each, with the address the comparator falls back on. `m_timers` is the std::set in its
  order, its iterators are positions and end() is the length. A user keeps a timer alive
  by a handle (`held`), the set keeps its members alive; a new object gets the address of
  no live one (`Fresh`), so that addresses of dead timers come back.

  Every reading of the clock is an argument, and 64-bit arithmetic wraps. What the code
  must not do ends an operation with a `TimerFault`: erasing end(), and assigning m_next,
  the key of the set's order, of a timer that is in the set.

  An operation runs under the mutex, so a history is a sequence of operations. The first
  test of m_timers.empty() in listExpiredCb, under the read lock, is the same test as the
  second when nothing runs between them. onTimerInsertedAtFront is what the subclass
  makes of it: here an operation only says whether it calls it.
-/

import Sylar.Lib.Lts
import Sylar.Lib.Except
import Sylar.Lib.OrderedSet
import Sylar.Scheduler.Task
import Mathlib.Logic.Function.Basic

namespace Sylar

abbrev TimerId := Nat

/-- A callback that is not empty: the user's, or `OnTimer` bound to a condition and the
    user's, which may be empty. -/
inductive TimerCb where
  | fn (cb : CbId)
  | onTimer (weakCond : Nat) (cb : Option CbId)
  deriving DecidableEq, Repr

/-- `Timer`, at its address. m_manager is the one manager. -/
structure Timer where
  m_recurring : Bool
  m_interval : UInt64
  m_next : UInt64
  m_cb : Option TimerCb
  addr : Nat
  deriving DecidableEq, Repr

/-- `Timer::Timer(interval, cb, recurring, manager)`. -/
def Timer.new (nowMs interval : UInt64) (cb : Option TimerCb) (recurring : Bool) (addr : Nat) : Timer :=
  ⟨recurring, interval, nowMs + interval, cb, addr⟩

/-- `Timer::Timer(next)`. -/
def Timer.at (next : UInt64) (addr : Nat) : Timer := ⟨false, 0, next, none, addr⟩

/-- `Timer::Comparator`; `none` is a null pointer. -/
def Timer.Comparator : Option Timer → Option Timer → Bool
  | none, none => false
  | none, some _ => true
  | some _, none => false
  | some lhs, some rhs =>
    if lhs.m_next < rhs.m_next then true
    else if rhs.m_next < lhs.m_next then false
    else decide (lhs.addr < rhs.addr)

structure TimerManager where
  m_timers : List TimerId
  m_tickled : Bool
  m_previousTime : UInt64
  timer : TimerId → Timer
  created : Nat
  held : TimerId → Bool

inductive TimerFault where
  | eraseEnd
  | keyInSet
  deriving DecidableEq, Repr

namespace TimerManager

/-- `TimerManager::TimerManager`. -/
def new (nowMs : UInt64) : TimerManager := ⟨[], false, nowMs, fun _ => .at 0 0, 0, fun _ => false⟩

def lt (m : TimerManager) (i j : TimerId) : Bool := Timer.Comparator (some (m.timer i)) (some (m.timer j))

/-! ## The set and the fields of a timer -/

def find (m : TimerManager) (val : TimerId) : Nat := OrderedSet.find m.lt val m.m_timers

/-- `m_timers.insert(val)`: the iterator it returns. -/
def insert (m : TimerManager) (val : TimerId) : TimerManager × Nat :=
  let r := OrderedSet.insert m.lt val m.m_timers
  ({ m with m_timers := r.2.2 }, r.1)

/-- `m_timers.erase(it)`. -/
def erase (m : TimerManager) (it : Nat) : Except TimerFault TimerManager :=
  if it < m.m_timers.length then .ok { m with m_timers := m.m_timers.eraseIdx it } else .error .eraseEnd

def modify (m : TimerManager) (val : TimerId) (f : Timer → Timer) : TimerManager :=
  { m with timer := Function.update m.timer val (f (m.timer val)) }

/-- `m_next = next`. -/
def setNext (m : TimerManager) (val : TimerId) (next : UInt64) : Except TimerFault TimerManager :=
  if val ∈ m.m_timers then .error .keyInSet else .ok (m.modify val ({ · with m_next := next }))

def setInterval (m : TimerManager) (val : TimerId) (interval : UInt64) : TimerManager :=
  m.modify val ({ · with m_interval := interval })

/-- `m_cb = nullptr`. -/
def clearCb (m : TimerManager) (val : TimerId) : TimerManager := m.modify val ({ · with m_cb := none })

/-! ## Adding -/

/-- `TimerManager::addTimer(val, wlock)`: and whether it calls onTimerInsertedAtFront. -/
def addTimerLocked (m : TimerManager) (val : TimerId) : TimerManager × Bool :=
  let r := m.insert val
  let atFront := r.2 == 0 && !m.m_tickled
  (if atFront then { r.1 with m_tickled := true } else r.1, atFront)

/-- The new object and its handle. -/
def create (m : TimerManager) (timer : Timer) : TimerManager :=
  { m with timer := Function.update m.timer m.created timer, created := m.created + 1,
           held := Function.update m.held m.created true }

/-- `TimerManager::addTimer(interval, cb, recurring)`. -/
def addTimer (m : TimerManager) (nowMs interval : UInt64) (cb : Option TimerCb) (recurring : Bool) (addr : Nat) :
    TimerManager × Bool :=
  (m.create (.new nowMs interval cb recurring addr)).addTimerLocked m.created

/-- `TimerManager::addConditionTimer`. -/
def addConditionTimer (m : TimerManager) (nowMs interval : UInt64) (cb : Option CbId) (weakCond : Nat)
    (recurring : Bool) (addr : Nat) : TimerManager × Bool :=
  m.addTimer nowMs interval (some (.onTimer weakCond cb)) recurring addr

/-! ## The operations of a timer -/

/-- `Timer::cancel`. -/
def cancel (m : TimerManager) (val : TimerId) : Except TimerFault (TimerManager × Bool) :=
  if (m.timer val).m_cb.isSome then do
    let m := m.clearCb val
    let m ← m.erase (m.find val)
    .ok (m, true)
  else .ok (m, false)

/-- `Timer::refresh`. -/
def refresh (m : TimerManager) (val : TimerId) (nowMs : UInt64) : Except TimerFault (TimerManager × Bool) :=
  if (m.timer val).m_cb.isNone then .ok (m, false)
  else
    let it := m.find val
    if it = m.m_timers.length then .ok (m, false)
    else do
      let m ← m.erase it
      let m ← m.setNext val (nowMs + (m.timer val).m_interval)
      .ok ((m.insert val).1, true)

/-- `Timer::reset`: what it returns, and whether it calls onTimerInsertedAtFront. -/
def reset (m : TimerManager) (val : TimerId) (interval : UInt64) (fromNow : Bool) (nowMs : UInt64) :
    Except TimerFault (TimerManager × Bool × Bool) :=
  if (m.timer val).m_interval = interval ∧ fromNow = false then .ok (m, true, false)
  else if (m.timer val).m_cb.isNone then .ok (m, false, false)
  else
    let it := m.find val
    if it = m.m_timers.length then .ok (m, false, false)
    else do
      let m ← m.erase it
      let start := if fromNow then nowMs else (m.timer val).m_next - (m.timer val).m_interval
      let m := m.setInterval val interval
      let m ← m.setNext val (start + (m.timer val).m_interval)
      let r := m.addTimerLocked val
      .ok (r.1, true, r.2)

/-! ## Reading and expiry -/

/-- `std::numeric_limits<uint64_t>::max()`. -/
def noTimer : UInt64 := 18446744073709551615

/-- `TimerManager::getNextTimer`. -/
def getNextTimer (m : TimerManager) (nowMs : UInt64) : TimerManager × UInt64 :=
  ({ m with m_tickled := false },
    match m.m_timers with
    | [] => noTimer
    | next :: _ => if nowMs ≥ (m.timer next).m_next then 0 else (m.timer next).m_next - nowMs)

/-- `TimerManager::hasTimer`. -/
def hasTimer (m : TimerManager) : Bool := !m.m_timers.isEmpty

/-- `TimerManager::detectClockRollover`. -/
def detectClockRollover (m : TimerManager) (nowMs : UInt64) : TimerManager × Bool :=
  ({ m with m_previousTime := nowMs },
    decide (nowMs < m.m_previousTime) && decide (nowMs < m.m_previousTime - 60 * 60 * 1000))

/-- The position after the expired timers. -/
def expiredEnd (m : TimerManager) (rollover : Bool) (nowMs : UInt64) (nowTimer : Timer) : Nat :=
  let it :=
    if rollover then m.m_timers.length
    else OrderedSet.lowerBound (fun i => Timer.Comparator (some (m.timer i)) (some nowTimer)) m.m_timers
  it + ((m.m_timers.drop it).takeWhile fun i => (m.timer i).m_next == nowMs).length

/-- The body of the loop over `expired`. -/
def expireOne (m : TimerManager) (nowMs : UInt64) (timer : TimerId) :
    Except TimerFault (TimerManager × Option TimerCb) :=
  let cb := (m.timer timer).m_cb
  if (m.timer timer).m_recurring then do
    let m ← m.setNext timer (nowMs + (m.timer timer).m_interval)
    .ok ((m.insert timer).1, cb)
  else .ok (m.clearCb timer, cb)

def expireAll (nowMs : UInt64) :
    List TimerId → TimerManager → Except TimerFault (TimerManager × List (Option TimerCb))
  | [], m => .ok (m, [])
  | timer :: expired, m => do
    let r ← m.expireOne nowMs timer
    let q ← expireAll nowMs expired r.1
    .ok (q.1, r.2 :: q.2)

/-- `TimerManager::listExpiredCb`, with `nowTimer` at the address `addr`: the expired
    timers and the callbacks it emits. -/
def listExpiredCb (m : TimerManager) (nowMs : UInt64) (addr : Nat) :
    Except TimerFault (TimerManager × List TimerId × List (Option TimerCb)) :=
  match m.m_timers with
  | [] => .ok (m, [], [])
  | first :: _ =>
    let r := m.detectClockRollover nowMs
    if !r.2 && decide ((m.timer first).m_next > nowMs) then .ok (r.1, [], [])
    else do
      let it := r.1.expiredEnd r.2 nowMs (.at nowMs addr)
      let expired := m.m_timers.take it
      let q ← expireAll nowMs expired { r.1 with m_timers := m.m_timers.drop it }
      .ok (q.1, expired, q.2)

/-! ## Histories -/

/-- Its address is taken. -/
def live (m : TimerManager) (i : TimerId) : Prop := m.held i = true ∨ i ∈ m.m_timers

def Fresh (m : TimerManager) (addr : Nat) : Prop := ∀ i, m.live i → (m.timer i).addr ≠ addr

end TimerManager

/-- An operation with its arguments, the clock's reading and the address of a new object. -/
inductive TimerOp where
  | addTimer (nowMs interval : UInt64) (cb : Option TimerCb) (recurring : Bool) (addr : Nat)
  | addConditionTimer (nowMs interval : UInt64) (cb : Option CbId) (weakCond : Nat) (recurring : Bool) (addr : Nat)
  | cancel (val : TimerId)
  | refresh (val : TimerId) (nowMs : UInt64)
  | reset (val : TimerId) (interval : UInt64) (fromNow : Bool) (nowMs : UInt64)
  | getNextTimer (nowMs : UInt64)
  | listExpiredCb (nowMs : UInt64) (addr : Nat)
  /-- The user drops a handle. -/
  | release (val : TimerId)
  deriving DecidableEq, Repr

/-- What an operation returns, whether it calls onTimerInsertedAtFront, and what it emits. -/
structure TimerOut where
  ret : Bool
  atFront : Bool
  expired : List TimerId
  cbs : List (Option TimerCb)
  deriving DecidableEq, Repr

namespace TimerManager

def exec (m : TimerManager) : TimerOp → Except TimerFault (TimerManager × TimerOut)
  | .addTimer nowMs interval cb recurring addr =>
    let r := m.addTimer nowMs interval cb recurring addr
    .ok (r.1, ⟨true, r.2, [], []⟩)
  | .addConditionTimer nowMs interval cb weakCond recurring addr =>
    let r := m.addConditionTimer nowMs interval cb weakCond recurring addr
    .ok (r.1, ⟨true, r.2, [], []⟩)
  | .cancel val => do
    let r ← m.cancel val
    .ok (r.1, ⟨r.2, false, [], []⟩)
  | .refresh val nowMs => do
    let r ← m.refresh val nowMs
    .ok (r.1, ⟨r.2, false, [], []⟩)
  | .reset val interval fromNow nowMs => do
    let r ← m.reset val interval fromNow nowMs
    .ok (r.1, ⟨r.2.1, r.2.2, [], []⟩)
  | .getNextTimer nowMs => .ok ((m.getNextTimer nowMs).1, ⟨true, false, [], []⟩)
  | .listExpiredCb nowMs addr => do
    let r ← m.listExpiredCb nowMs addr
    .ok (r.1, ⟨true, false, r.2.1, r.2.2⟩)
  | .release val => .ok ({ m with held := Function.update m.held val false }, ⟨true, false, [], []⟩)

/-- A user calls a timer through its handle, and a new timer gets a free address. -/
def Legal (m : TimerManager) : TimerOp → Prop
  | .addTimer _ _ _ _ addr => m.Fresh addr
  | .addConditionTimer _ _ _ _ _ addr => m.Fresh addr
  | .cancel val => m.held val = true
  | .refresh val _ => m.held val = true
  | .reset val _ _ _ => m.held val = true
  | .getNextTimer _ => True
  | .listExpiredCb _ _ => True
  | .release val => m.held val = true

def Step (m : TimerManager) (a : TimerOp × TimerOut) (m' : TimerManager) : Prop :=
  m.Legal a.1 ∧ m.exec a.1 = .ok (m', a.2)

def Init (m : TimerManager) : Prop := ∃ nowMs, m = new nowMs

end TimerManager

end Sylar
