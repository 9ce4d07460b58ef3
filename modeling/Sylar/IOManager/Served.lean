/-
  Sylar.IOManager.Served — in which order tasks are served (sylar/scheduler.h lines 27-67,
  sylar/scheduler.cpp lines 116-160): m_tasks as a first-fit queue.

  Both machines, `Scheduler` with its own idle fiber and `IOManager`, touch m_tasks only in
  `schedule` and in the scan of `run`, so each of their runs is one of a first-fit queue
  (`Sylar.Lib.FirstFit`) whose takers are the threads; timer callbacks and triggered events
  come in by `schedule` too.

  Proved, for any number of threads and every interleaving (`first_come`):
  - tasks with the same m_threadId are dequeued in the order they were scheduled;
  - while a task is queued, the threads that may run it dequeue only tasks scheduled
    before it, each once. So it waits for no more dequeues by them than there were such
    tasks when it came, whatever is scheduled meanwhile.
-/

import Sylar.Lib.FirstFit
import Sylar.Scheduler.Base
import Sylar.IOManager.Machine

namespace Sylar

namespace Entry

/-- The earlier submission. -/
def before (x y : Entry) : Prop := x.number < y.number

instance : DecidableRel before := fun x y => inferInstanceAs (Decidable (x.number < y.number))

def pin (x : Entry) : Option Tid := x.task.m_threadId

theorem eligible_of_pin (t : Tid) (x y : Entry) (h : x.pin = y.pin) : x.eligible t = y.eligible t := by
  show ((x.pin == none) || (x.pin == some t)) = ((y.pin == none) || (y.pin == some t))
  rw [h]

end Entry

namespace Scheduler

variable {ι δ : Type}

/-- The queue of the scheduler, with what its threads took. -/
def line (s : State ι δ) : FirstFit.State Entry Tid := ⟨s.m_tasks, s.dequeued⟩

abbrev LineSteps (s s' : State ι δ) : Prop := FirstFit.Steps Entry.before Entry.eligible (line s) (line s')

/-- Submissions are numbered in order. -/
def Numbered (s : State ι δ) : Prop := ∀ x ∈ (line s).items, x.number < s.submitted

theorem Inv.numbered {c : Config} {s : State ι δ} (hi : Inv c s) : Numbered s := by
  intro x hx
  have hmem : x.number ∈ s.dequeued.map (·.1.number) ++ s.m_tasks.map (·.number) := by
    rcases List.mem_append.mp hx with hx | hx
    · obtain ⟨y, hy, rfl⟩ := List.mem_map.mp hx
      exact List.mem_append_left _ (List.mem_map_of_mem hy)
    · exact List.mem_append_right _ (List.mem_map_of_mem hx)
  exact List.mem_range.mp (hi.numbers.subset hmem)

theorem schedule_line {s : State ι δ} (hn : Numbered s) (t : Tid) (task : ScheduleTask) :
    LineSteps s (s.schedule t task) := by
  have hline : line (s.schedule t task) =
      ⟨if task.nonEmpty then s.m_tasks ++ [⟨task, s.submitted⟩] else s.m_tasks, s.dequeued⟩ := by
    rw [line, schedule_m_tasks, schedule_dequeued]
  rw [LineSteps, hline]
  split
  · exact .single (a := .put ⟨task, s.submitted⟩) (.put hn)
  · exact .init rfl

theorem dequeue_line (s : State ι δ) (t : Tid) : LineSteps s (s.dequeue t) := by
  rcases dequeue_cases s t with ⟨x, pre, post, k, hq, hx, hpre, -, hd⟩ | ⟨k, -, hd⟩
  · have hline : line s = ⟨pre ++ x :: post, s.dequeued⟩ := by rw [line, hq]
    rw [LineSteps, hline, hd]
    exact .single (a := .take x t) (.take hx hpre)
  · rw [hd]
    exact .init rfl

theorem RunStep.line {c : Config} {i₀ : ι} {s s' : State ι δ} {a : RunAct} (h : RunStep c i₀ s a s')
    (hn : Numbered s) : LineSteps s s' := by
  cases h with
  | dequeue _ => exact dequeue_line _ _
  | schedule task _ => exact schedule_line hn _ task
  | _ => exact .init rfl

/-- Tasks pinned alike are dequeued in the order they were scheduled, and a queued task is
    overtaken by nothing that the dequeuing thread could have taken it instead of. -/
structure FirstCome (reach : State ι δ → Prop) (run : State ι δ → State ι δ → Prop) : Prop where
  fifo : ∀ s, reach s → ∀ pin : Option Tid,
    (((s.dequeued.map (·.1) ++ s.m_tasks).filter fun x => x.pin = pin).map (·.number)).Pairwise (· < ·)
  overtaken : ∀ s s', reach s → run s s' → ∃ new, s'.dequeued = s.dequeued ++ new ∧
    ∀ x ∈ s.m_tasks, x ∈ s'.m_tasks →
      ((new.filter fun y => x.eligible y.2).map (·.1)).Subperm (s.m_tasks.filter fun y => y.number < x.number)

theorem Start.line {s : State ι δ} (h : Start s) : FirstFit.Start (Scheduler.line s) := ⟨h.m_tasks, h.dequeued⟩

/-- So it is for every machine whose steps are those of the queue. -/
theorem FirstCome.of {α : Type} {init : State ι δ → Prop} {step : State ι δ → α → State ι δ → Prop}
    (h0 : ∀ s, init s → FirstFit.Start (Scheduler.line s)) (hn : ∀ s, Lts.Reach init step s → Numbered s)
    (hs : ∀ s a s', step s a s' → Numbered s → LineSteps s s') :
    FirstCome (Lts.Reach init step) fun s => Lts.Reach (· = s) step where
  fifo s hr pin := by
    have hline : FirstFit.Reach Entry.before Entry.eligible (Scheduler.line s) :=
      hr.sim Scheduler.line h0 fun u a u' hu hst => hs u a u' hst (hn u hu)
    have horder := hline.inOrder Entry.eligible_of_pin pin
    rw [List.pairwise_map]
    exact horder
  overtaken s s' hr hrun := by
    have hline : FirstFit.Reach Entry.before Entry.eligible (Scheduler.line s) :=
      hr.sim Scheduler.line h0 fun u a u' hu hst => hs u a u' hst (hn u hu)
    have hsteps : FirstFit.Steps Entry.before Entry.eligible (Scheduler.line s) (Scheduler.line s') := by
      refine hrun.sim Scheduler.line ?_ fun u a u' hu hst => hs u a u' hst (hn u (hr.trans hu))
      rintro u rfl
      rfl
    exact FirstFit.overtaken (fun _ _ => Nat.lt_asymm) hline.sorted hsteps

end Scheduler

namespace Scheduler.Base

theorem run_inv {c : Config} {s : State Unit Unit} (h : Reach c s) : Scheduler.Inv c s := by
  refine h.inv (fun _ => Start.inv) fun s a s' hi hst => ?_
  rcases hst.split with ⟨b, hst⟩ | ⟨t, -, rfl⟩ | ⟨t, -, hat, rfl⟩
  · exact hst.inv hi
  · exact hi.tickles _ _
  · have ht : t ∈ c.threads := hi.members t (by rw [hat.1]; simp)
    exact hi.move rfl rfl rfl rfl rfl rfl (by rw [hat.1]; rfl) (by rw [hat.1]; rfl) fun _ => ht

theorem step_line {c : Config} {s s' : State Unit Unit} {a : Act} (h : Step c s a s') (hn : Numbered s) :
    LineSteps s s' := by
  rcases h.split with ⟨b, h⟩ | ⟨t, -, rfl⟩ | ⟨t, -, -, rfl⟩
  · exact h.line hn
  · exact .init rfl
  · exact .init rfl

end Scheduler.Base

namespace IOMachine

open Scheduler

/-- Timer callbacks and events that idle found are scheduled like any task. -/
theorem step_line {c : Config} {s s' : IOState} {a : Act} (h : Step c s a s') (hn : Numbered s) :
    LineSteps s s' := by
  cases h with
  | run h => exact h.line hn
  | @hand t cb cbs _ => exact schedule_line (s := s.goto t (.idle (.hand cbs))) hn t (.ofCb cb none)
  | @trigger t task _ _ =>
    exact schedule_line (s := (s.goto t (.idle .triggered)).withExt { s.ext with events := s.ext.events.erase task })
      hn t task
  | addTimer timer atFront _ => cases atFront <;> exact .init rfl
  | stopping2 _ => split <;> exact .init rfl
  | _ => exact .init rfl

theorem run_inv {c : Config} {s : IOState} (h : Reach c s) : Scheduler.Inv c s :=
  (h.inv (I := Inv c) (fun _ => start_inv) fun _ _ _ => step_inv).run

theorem first_come (c : Config) :
    FirstCome (Base.Reach c) (fun s => Lts.Reach (· = s) (Base.Step c)) ∧
      FirstCome (Reach c) fun s => Lts.Reach (· = s) (Step c) := by
  constructor
  · exact .of (fun s h => h.line) (fun s h => (Base.run_inv h).numbered) fun s a s' h hn => Base.step_line h hn
  · exact .of (fun s h => h.run.line) (fun s h => (run_inv h).numbered) fun s a s' h hn => step_line h hn

end IOMachine

end Sylar
