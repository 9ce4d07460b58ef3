/-
  Sylar.Fiber.Switch — the state that `Fiber::resume` and `Fiber::yield` switch with
  (sylar/fiber.cpp lines 115-156): the thread-local pointers, and of each fiber its
  state, its saved context and whether it runs in the scheduler.

  Code runs at a point: a fiber and how many statements of its body lie behind. A context
  is the point where its `swapcontext` returns, at first the start of the body.
-/

import Sylar.Scheduler.Task
import Mathlib.Logic.Function.Basic

namespace Sylar.Switch

structure Point where
  fiber : FiberId
  pos : Nat
  deriving DecidableEq, Repr

def Point.next (p : Point) : Point := ⟨p.fiber, p.pos + 1⟩

/-- The pointers of one thread. -/
structure Tls where
  t_fiber : FiberId
  t_thread_fiber : FiberId
  t_scheduler_fiber : FiberId
  deriving DecidableEq, Repr

def Tls.SetThis (x : Tls) (f : FiberId) : Tls := { x with t_fiber := f }

structure Fibers where
  m_state : FiberId → FiberState
  m_ctx : FiberId → Point
  m_runInScheduler : FiberId → Bool

namespace Fibers

variable (fs : Fibers)

def setState (f : FiberId) (st : FiberState) : Fibers := { fs with m_state := Function.update fs.m_state f st }

/-- The first half of `swapcontext`. -/
def save (f : FiberId) (p : Point) : Fibers := { fs with m_ctx := Function.update fs.m_ctx f p }

/-- `if (m_state != TERM) m_state = READY`. -/
def yielded (f : FiberId) : Fibers := if fs.m_state f = .TERM then fs else fs.setState f .READY

/-- The fiber that `f` is resumed from and yields to. -/
def home (x : Tls) (f : FiberId) : FiberId := if fs.m_runInScheduler f then x.t_scheduler_fiber else x.t_thread_fiber

@[simp] theorem setState_self (f : FiberId) (st : FiberState) : (fs.setState f st).m_state f = st :=
  Function.update_self ..
@[simp] theorem save_inScheduler (f : FiberId) (p : Point) : (fs.save f p).m_runInScheduler = fs.m_runInScheduler := rfl
@[simp] theorem save_self (f : FiberId) (p : Point) : (fs.save f p).m_ctx f = p := Function.update_self ..

variable {fs}

theorem setState_other {f g : FiberId} (h : g ≠ f) (st : FiberState) : (fs.setState f st).m_state g = fs.m_state g :=
  Function.update_of_ne h ..

theorem save_other {f g : FiberId} (h : g ≠ f) (p : Point) : (fs.save f p).m_ctx g = fs.m_ctx g :=
  Function.update_of_ne h ..

@[simp] theorem yielded_ctx (f : FiberId) : (fs.yielded f).m_ctx = fs.m_ctx := by
  unfold yielded
  split <;> rfl

@[simp] theorem yielded_inScheduler (f : FiberId) : (fs.yielded f).m_runInScheduler = fs.m_runInScheduler := by
  unfold yielded
  split <;> rfl

theorem yielded_other {f g : FiberId} (h : g ≠ f) : (fs.yielded f).m_state g = fs.m_state g := by
  unfold yielded
  split
  · rfl
  · exact setState_other h _

end Fibers
end Sylar.Switch
