/-
  Sylar.Fiber.Current — t_fiber on the threads of a scheduler: worker threads, whose
  main fiber runs Scheduler::run, and the caller thread of use_caller, where m_rootFiber
  does (sylar/fiber.cpp lines 115-156, sylar/scheduler.cpp lines 13-33 and 116-180).

  Actors. Any threads, each from the start of run on, or on the caller thread from the
  end of the constructor on. The code of run resumes any fiber that runs in the scheduler
  (tasks, functions, the idle fiber), these yield or end in any order, on any thread; the
  caller's main fiber resumes m_rootFiber in stop(). resume and yield are taken apart at
  every access that another thread can come between. A step whose assertion fails has no
  successor.

  Proved: on a thread t_fiber is the fiber whose code runs, at every point outside
  resume, yield and MainFunc, exactly when no fiber of the scheduler has switched back to
  m_rootFiber there (`this_fiber_iff`); so it always is on a worker (`this_fiber_worker`).
  On the caller thread it is the main fiber once a task has yielded
  (`root_runs_as_main`).
-/

import Sylar.Lib.Lts
import Sylar.Fiber.Switch

namespace Sylar.Current

open Switch

/-- The fibers of each thread; `root` is m_rootFiber on the caller thread. -/
structure Config where
  main : Tid → FiberId
  root : Tid → Option FiberId
  inScheduler : FiberId → Bool
  main_out : ∀ t, inScheduler (main t) = false
  root_out : ∀ t r, root t = some r → inScheduler r = false
  root_ne : ∀ t r, root t = some r → r ≠ main t

/-- The fiber that runs Scheduler::run, t_scheduler_fiber. -/
def Config.scheduler (c : Config) (t : Tid) : FiberId := (c.root t).getD (c.main t)

inductive Pc where
  | code (p : Point)
  /-- In `g->resume()` after its assertion. -/
  | resuming (g : FiberId) (ret : Point)
  /-- At `swapcontext(&save->m_ctx, &load->m_ctx)`. -/
  | switching (save load : FiberId) (ret : Point)
  deriving DecidableEq, Repr

/-- A thread's pointers and where it is. -/
structure Thread where
  tls : Tls
  pc : Pc
  deriving DecidableEq, Repr

structure State where
  threads : Tid → Thread
  fibers : Fibers

/-- `t` goes on with `x`. -/
def State.put (s : State) (t : Tid) (x : Thread) (fibers : Fibers) : State :=
  ⟨Function.update s.threads t x, fibers⟩

inductive Act where
  | work (t : Tid)
  | create (g : FiberId)
  | resume (t : Tid) (g : FiberId)
  | enter (t : Tid)
  | yield (t : Tid)
  | finish (t : Tid)
  | swap (t : Tid)
  deriving DecidableEq, Repr

variable (c : Config)

/-- Who resumes `g` on `t`: the code of run, a fiber of the scheduler; stop(), m_rootFiber. -/
def Resumes (t : Tid) (f g : FiberId) : Prop :=
  (f = c.scheduler t ∧ c.inScheduler g = true) ∨ (f = c.main t ∧ c.root t = some g)

inductive Step (s : State) : Act → State → Prop
  | work (t : Tid) (tls : Tls) (p : Point) : s.threads t = ⟨tls, .code p⟩ →
      Step s (.work t) (s.put t ⟨tls, .code p.next⟩ s.fibers)
  /-- A fiber is constructed or reset. -/
  | create (g : FiberId) : c.inScheduler g = true → s.fibers.m_state g = .TERM →
      Step s (.create g) { s with fibers := (s.fibers.save g ⟨g, 0⟩).setState g .READY }
  | resume (t : Tid) (tls : Tls) (g : FiberId) (p : Point) : s.threads t = ⟨tls, .code p⟩ → Resumes c t p.fiber g →
      s.fibers.m_state g = .READY → Step s (.resume t g) (s.put t ⟨tls, .resuming g p.next⟩ s.fibers)
  | enter (t : Tid) (tls : Tls) (g : FiberId) (ret : Point) : s.threads t = ⟨tls, .resuming g ret⟩ →
      Step s (.enter t) (s.put t ⟨tls.SetThis g, .switching (s.fibers.home tls g) g ret⟩ (s.fibers.setState g .RUNNING))
  /-- `Fiber::GetThis()->yield()`. -/
  | yield (t : Tid) (tls : Tls) (p : Point) : s.threads t = ⟨tls, .code p⟩ → c.inScheduler p.fiber = true →
      s.fibers.m_state tls.t_fiber ≠ .READY →
      Step s (.yield t) (s.put t ⟨tls.SetThis tls.t_thread_fiber,
        .switching tls.t_fiber (s.fibers.home tls tls.t_fiber) p.next⟩ (s.fibers.yielded tls.t_fiber))
  /-- MainFunc after m_cb() has returned. -/
  | finish (t : Tid) (tls : Tls) (p : Point) : s.threads t = ⟨tls, .code p⟩ →
      (c.inScheduler p.fiber = true ∨ c.root t = some p.fiber) →
      Step s (.finish t) (s.put t ⟨tls.SetThis tls.t_thread_fiber,
        .switching p.fiber (s.fibers.home tls p.fiber) p.next⟩ (s.fibers.setState p.fiber .TERM))
  | swap (t : Tid) (tls : Tls) (save load : FiberId) (ret : Point) : s.threads t = ⟨tls, .switching save load ret⟩ →
      Step s (.swap t) (s.put t ⟨tls, .code ((s.fibers.save save ret).m_ctx load)⟩ (s.fibers.save save ret))

structure Init (s : State) : Prop where
  threads : ∀ t, s.threads t = ⟨⟨c.main t, c.main t, c.scheduler t⟩, .code ⟨c.main t, 0⟩⟩
  inScheduler : s.fibers.m_runInScheduler = c.inScheduler
  ctx : ∀ f, s.fibers.m_ctx f = ⟨f, 0⟩

/-- Outside resume, yield and MainFunc t_fiber is the fiber whose code runs. -/
def Denotes (x : Thread) : Prop := ∀ p, x.pc = .code p → x.tls.t_fiber = p.fiber

/-- A fiber of the scheduler switches back on `t` only where run is the main fiber's. -/
def NotToRoot (t : Tid) (s : State) (a : Act) : Prop :=
  ∀ tls save load ret, a = .swap t → s.threads t = ⟨tls, .switching save load ret⟩ → c.inScheduler save = true →
    c.root t = none

/-! ## What every state keeps -/

/-- Where a thread is: code of the scheduler's fibers runs under its own pointer; a switch
    saves the running point where it belongs, with t_fiber set to the fiber it continues, but
    to the main fiber when a fiber of the scheduler switches back. -/
inductive At (t : Tid) (t_fiber : FiberId) : Pc → Prop
  | code (p : Point) : (c.inScheduler p.fiber = true → t_fiber = p.fiber) → At t t_fiber (.code p)
  | resuming (g : FiberId) (ret : Point) : Resumes c t ret.fiber g → At t t_fiber (.resuming g ret)
  | enters (save load : FiberId) (ret : Point) : ret.fiber = save → c.inScheduler save = false → t_fiber = load →
      At t t_fiber (.switching save load ret)
  | leaves (save : FiberId) (ret : Point) : ret.fiber = save → c.inScheduler save = true → t_fiber = c.main t →
      At t t_fiber (.switching save (c.scheduler t) ret)

structure Ok (t : Tid) (x : Thread) : Prop where
  thread : x.tls.t_thread_fiber = c.main t
  scheduler : x.tls.t_scheduler_fiber = c.scheduler t
  pc : At c t x.tls.t_fiber x.pc

structure Inv (s : State) : Prop where
  inScheduler : s.fibers.m_runInScheduler = c.inScheduler
  ctx : ∀ f, (s.fibers.m_ctx f).fiber = f
  threads : ∀ t, Ok c t (s.threads t)

variable {c} {s s' : State} {a : Act} {t : Tid}

theorem init_inv (h : Init c s) : Inv c s := by
  refine ⟨h.inScheduler, ?_, ?_⟩
  · intro f
    rw [h.ctx]
  · intro t
    rw [h.threads]
    exact ⟨rfl, rfl, .code _ fun hin => absurd (hin.symm.trans (c.main_out t)) nofun⟩

theorem scheduler_out (c : Config) (t : Tid) : c.inScheduler (c.scheduler t) = false := by
  unfold Config.scheduler
  cases hr : c.root t with
  | none => exact c.main_out t
  | some r => exact c.root_out t r hr

/-- On a worker run is the main fiber's, on the caller thread it is not. -/
theorem scheduler_eq_main (c : Config) (t : Tid) : c.scheduler t = c.main t ↔ c.root t = none := by
  unfold Config.scheduler
  cases hr : c.root t with
  | none => simp
  | some r => simpa using c.root_ne t r hr

theorem home_in {x : Thread} (h : Inv c s) (hx : Ok c t x) {f : FiberId} (hf : c.inScheduler f = true) :
    s.fibers.home x.tls f = c.scheduler t := by
  rw [Fibers.home, h.inScheduler, hf, hx.scheduler]
  rfl

theorem home_out {x : Thread} (h : Inv c s) (hx : Ok c t x) {f : FiberId} (hf : c.inScheduler f = false) :
    s.fibers.home x.tls f = c.main t := by
  rw [Fibers.home, h.inScheduler, hf, hx.thread]
  rfl

theorem put_inv (h : Inv c s) {x : Thread} {fibers : Fibers} (hin : fibers.m_runInScheduler = s.fibers.m_runInScheduler)
    (hctx : ∀ f, (fibers.m_ctx f).fiber = f) (hx : Ok c t x) : Inv c (s.put t x fibers) := by
  refine ⟨hin.trans h.inScheduler, hctx, ?_⟩
  exact (Function.forall_update_iff s.threads fun u y => Ok c u y).mpr ⟨hx, fun u _ => h.threads u⟩

theorem save_ctx (h : Inv c s) {f : FiberId} {p : Point} (hp : p.fiber = f) (g : FiberId) :
    ((s.fibers.save f p).m_ctx g).fiber = g := by
  by_cases e : g = f
  · rw [e, Fibers.save_self, hp]
  · rw [Fibers.save_other e]
    exact h.ctx g

theorem step_inv (h : Inv c s) (hst : Step c s a s') : Inv c s' := by
  cases hst with
  | work t tls p hx =>
    have hok : Ok c t ⟨tls, .code p⟩ := hx ▸ h.threads t
    have hpc : At c t tls.t_fiber (.code p) := hok.pc
    cases hpc with
    | code _ hcode => exact put_inv h rfl h.ctx ⟨hok.thread, hok.scheduler, .code _ hcode⟩
  | create g => exact ⟨h.inScheduler, fun f => save_ctx h (f := g) (p := ⟨g, 0⟩) rfl f, h.threads⟩
  | resume t tls g p hx hr =>
    have hok : Ok c t ⟨tls, .code p⟩ := hx ▸ h.threads t
    exact put_inv h rfl h.ctx ⟨hok.thread, hok.scheduler, .resuming _ _ hr⟩
  | enter t tls g ret hx =>
    have hok : Ok c t ⟨tls, .resuming g ret⟩ := hx ▸ h.threads t
    have hpc : At c t tls.t_fiber (.resuming g ret) := hok.pc
    cases hpc with
    | resuming _ _ hr =>
      -- the running point is that of the fiber which resumes
      have hsave : ret.fiber = s.fibers.home tls g ∧ c.inScheduler ret.fiber = false := by
        rcases hr with ⟨hf, hin⟩ | ⟨hf, hroot⟩
        · exact ⟨hf.trans (home_in h hok hin).symm, hf ▸ scheduler_out c t⟩
        · exact ⟨hf.trans (home_out h hok (c.root_out t g hroot)).symm, hf ▸ c.main_out t⟩
      exact put_inv h rfl h.ctx ⟨hok.thread, hok.scheduler, .enters _ _ _ hsave.1 (hsave.1 ▸ hsave.2) rfl⟩
  | yield t tls p hx hin =>
    have hok : Ok c t ⟨tls, .code p⟩ := hx ▸ h.threads t
    have hpc : At c t tls.t_fiber (.code p) := hok.pc
    cases hpc with
    | code _ hcode =>
      have hself : tls.t_fiber = p.fiber := hcode hin
      have hin' : c.inScheduler tls.t_fiber = true := hself ▸ hin
      have hctx : ∀ f, ((s.fibers.yielded tls.t_fiber).m_ctx f).fiber = f := by
        rw [Fibers.yielded_ctx]
        exact h.ctx
      refine put_inv h (Fibers.yielded_inScheduler _) hctx ⟨hok.thread, hok.scheduler, ?_⟩
      rw [home_in h hok hin']
      exact .leaves _ _ hself.symm hin' hok.thread
  | finish t tls p hx hf =>
    have hok : Ok c t ⟨tls, .code p⟩ := hx ▸ h.threads t
    refine put_inv h rfl h.ctx ⟨hok.thread, hok.scheduler, ?_⟩
    rcases hf with hin | hroot
    · rw [home_in h hok hin]
      exact .leaves _ _ rfl hin hok.thread
    · have hout := c.root_out t _ hroot
      rw [home_out h hok hout]
      exact .enters _ _ _ rfl hout hok.thread
  | swap t tls save load ret hx =>
    have hok : Ok c t ⟨tls, .switching save load ret⟩ := hx ▸ h.threads t
    have hpc : At c t tls.t_fiber (.switching save load ret) := hok.pc
    cases hpc with
    | enters _ _ _ hret _ hload =>
      refine put_inv h rfl (save_ctx h hret) ⟨hok.thread, hok.scheduler, .code _ fun _ => ?_⟩
      exact hload.trans (save_ctx h hret _).symm
    | leaves _ _ hret =>
      refine put_inv h rfl (save_ctx h hret) ⟨hok.thread, hok.scheduler, .code _ fun hin => ?_⟩
      rw [save_ctx h hret, scheduler_out] at hin
      cases hin

/-! ## t_fiber -/

theorem put_denotes {u : Tid} {x : Thread} {fibers : Fibers} (hd : Denotes (s.threads t)) (hx : u = t → Denotes x) :
    Denotes ((s.put u x fibers).threads t) := by
  show Denotes (Function.update s.threads u x t)
  by_cases e : t = u
  · subst e
    rw [Function.update_self]
    exact hx rfl
  · rw [Function.update_of_ne e]
    exact hd

/-- After a switch t_fiber is right, unless a fiber of the scheduler switched back to m_rootFiber. -/
theorem swap_denotes_iff (h : Inv c s) {tls : Tls} {save load : FiberId} {ret : Point}
    (hx : s.threads t = ⟨tls, .switching save load ret⟩) :
    Denotes ⟨tls, .code ((s.fibers.save save ret).m_ctx load)⟩ ↔ (c.inScheduler save = true → c.root t = none) := by
  have hok : Ok c t ⟨tls, .switching save load ret⟩ := hx ▸ h.threads t
  have hpc : At c t tls.t_fiber (.switching save load ret) := hok.pc
  have hden : ret.fiber = save → (Denotes ⟨tls, .code ((s.fibers.save save ret).m_ctx load)⟩ ↔ tls.t_fiber = load) := by
    intro hret
    have hload := save_ctx h hret load
    constructor
    · intro hd
      exact (hd _ rfl).trans hload
    · intro hd p hx
      cases hx
      exact hd.trans hload.symm
  cases hpc with
  | enters _ _ _ hret hout hload => exact iff_of_true ((hden hret).mpr hload) fun hin => by simp [hout] at hin
  | leaves _ _ hret hin hmain =>
    rw [hden hret, hmain, eq_comm, scheduler_eq_main]
    exact ⟨fun hr _ => hr, fun hr => hr hin⟩

theorem step_denotes_iff (h : Inv c s) (hd : Denotes (s.threads t)) (hst : Step c s a s') :
    Denotes (s'.threads t) ↔ NotToRoot c t s a := by
  have hother : ∀ {a : Act} {s' : State}, Denotes (s'.threads t) → a ≠ .swap t →
      (Denotes (s'.threads t) ↔ NotToRoot c t s a) :=
    fun hd' ha => iff_of_true hd' fun _ _ _ _ e => absurd e ha
  cases hst with
  | work u tls p hx =>
    refine hother (put_denotes hd ?_) nofun
    intro hx p' hy
    subst hx
    cases hy
    rw [hx] at hd
    exact hd p rfl
  | create => exact hother hd nofun
  | resume => exact hother (put_denotes hd fun _ => nofun) nofun
  | enter => exact hother (put_denotes hd fun _ => nofun) nofun
  | yield => exact hother (put_denotes hd fun _ => nofun) nofun
  | finish => exact hother (put_denotes hd fun _ => nofun) nofun
  | swap u tls save load ret hx =>
    by_cases e : u = t
    · subst e
      have hiff := swap_denotes_iff h hx
      have hput : (s.put u ⟨tls, .code ((s.fibers.save save ret).m_ctx load)⟩ (s.fibers.save save ret)).threads u =
          ⟨tls, .code ((s.fibers.save save ret).m_ctx load)⟩ := Function.update_self ..
      rw [hput, hiff]
      constructor
      · intro hr tls' save' load' ret' _ hx' hin
        rw [hx] at hx'
        cases hx'
        exact hr hin
      · intro hr
        exact hr tls save load ret rfl hx
    · exact hother (put_denotes hd fun e' => absurd e' e) fun e' => e (Act.swap.inj e')

theorem init_denotes (h : Init c s) : Denotes (s.threads t) := by
  rw [h.threads]
  intro p hx
  cases hx
  rfl

/-- In every run, on every thread: t_fiber is the fiber whose code runs at every point
    outside resume, yield and MainFunc, exactly when no fiber of the scheduler switches
    back to m_rootFiber on it. -/
theorem this_fiber_iff {tr : List (Act × State)} (t : Tid) (h0 : Init c s) (h : Lts.Run (Step c) s tr) :
    Lts.Every (fun _ _ s' => Denotes (s'.threads t)) s tr ↔ Lts.Every (fun s a _ => NotToRoot c t s a) s tr :=
  Lts.Run.every_iff (J := fun s => Inv c s ∧ Denotes (s.threads t)) (G := NotToRoot c t)
    (fun _ _ _ hj hg hst => ⟨step_inv hj.1 hst, (step_denotes_iff hj.1 hj.2 hst).mpr hg⟩)
    (fun _ _ _ hj hst => step_denotes_iff hj.1 hj.2 hst) h ⟨init_inv h0, init_denotes h0⟩

/-- On a worker thread it always is. -/
theorem this_fiber_worker (ht : c.root t = none) (h : Lts.Reach (Init c) (Step c) s) : Denotes (s.threads t) := by
  have hj : Inv c s ∧ Denotes (s.threads t) := by
    refine h.inv (I := fun s => Inv c s ∧ Denotes (s.threads t)) (fun _ h0 => ⟨init_inv h0, init_denotes h0⟩) ?_
    intro s a s' hj hst
    exact ⟨step_inv hj.1 hst, (step_denotes_iff hj.1 hj.2 hst).mpr fun _ _ _ _ _ _ _ => ht⟩
  exact hj.2

/-! ## A caller and a worker -/

/-- Thread 0 is the caller, with m_rootFiber 1; fiber 2 is a task. -/
def pool : Config where
  main t := t + 3
  root t := if t = 0 then some 1 else none
  inScheduler f := f == 2
  main_out t := by simp
  root_out t r h := by
    split at h <;> cases h
    rfl
  root_ne t r h := by
    split at h <;> cases h
    exact Nat.ne_of_lt (Nat.lt_add_left t (by decide))

def start : State where
  threads t := ⟨⟨pool.main t, pool.main t, pool.scheduler t⟩, .code ⟨pool.main t, 0⟩⟩
  fibers := ⟨fun f => if f < 3 then .READY else .RUNNING, fun f => ⟨f, 0⟩, pool.inScheduler⟩

theorem start_init : Init pool start := ⟨fun _ => rfl, rfl, fun _ => rfl⟩

/-- `t` resumes `g`, up to the first statement of `g`. -/
def resumed (s : State) (t : Tid) (g : FiberId) (p : Point) : List (Act × State) :=
  let tls := (s.threads t).tls
  let s1 := s.put t ⟨tls, .resuming g p.next⟩ s.fibers
  let s2 := s1.put t ⟨tls.SetThis g, .switching p.fiber g p.next⟩ (s.fibers.setState g .RUNNING)
  let fs := (s.fibers.setState g .RUNNING).save p.fiber p.next
  [(.resume t g, s1), (.enter t, s2), (.swap t, s2.put t ⟨tls.SetThis g, .code (fs.m_ctx g)⟩ fs)]

theorem resumed_run {s : State} {g : FiberId} {p : Point} (tls : Tls) (hx : s.threads t = ⟨tls, .code p⟩)
    (hr : Resumes c t p.fiber g) (hready : s.fibers.m_state g = .READY) (hhome : s.fibers.home tls g = p.fiber) :
    Lts.Run (Step c) s (resumed s t g p) := by
  have htls : (s.threads t).tls = tls := by rw [hx]
  have h1 : Step c s (.resume t g) (s.put t ⟨tls, .resuming g p.next⟩ s.fibers) := .resume t tls g p hx hr hready
  have h2 := Step.enter (c := c) (s := s.put t ⟨tls, .resuming g p.next⟩ s.fibers) t tls g p.next
    (Function.update_self ..)
  have h3 := Step.swap (c := c) (s := (s.put t ⟨tls, .resuming g p.next⟩ s.fibers).put t
    ⟨tls.SetThis g, .switching p.fiber g p.next⟩ (s.fibers.setState g .RUNNING)) t (tls.SetThis g) p.fiber g p.next
    (Function.update_self ..)
  unfold resumed
  rw [htls]
  have hhome' : (s.put t ⟨tls, .resuming g p.next⟩ s.fibers).fibers.home tls g = p.fiber := hhome
  rw [hhome'] at h2
  exact .cons h1 (.cons h2 (.cons h3 (.nil _)))

/-- The fiber at `p` on `t` yields, up to where its thread goes on. -/
def yielded (s : State) (t : Tid) (p : Point) : List (Act × State) :=
  let tls := (s.threads t).tls
  let tls' := tls.SetThis tls.t_thread_fiber
  let home := s.fibers.home tls p.fiber
  let fs := s.fibers.yielded p.fiber
  let s1 := s.put t ⟨tls', .switching p.fiber home p.next⟩ fs
  let fs' := fs.save p.fiber p.next
  [(.yield t, s1), (.swap t, s1.put t ⟨tls', .code (fs'.m_ctx home)⟩ fs')]

theorem yielded_run {s : State} {p : Point} (tls : Tls) (hx : s.threads t = ⟨tls, .code p⟩)
    (hin : c.inScheduler p.fiber = true) (hthis : tls.t_fiber = p.fiber) (hready : s.fibers.m_state p.fiber ≠ .READY) :
    Lts.Run (Step c) s (yielded s t p) := by
  have htls : (s.threads t).tls = tls := by rw [hx]
  have h1 := Step.yield t tls p hx hin (hthis ▸ hready)
  rw [hthis] at h1
  unfold yielded
  rw [htls]
  exact .cons h1 (.cons (.swap t _ _ _ _ (Function.update_self ..)) (.nil _))

/-- Worker 1 runs the task, which yields. -/
def workerRun : List (Act × State) :=
  let tr := resumed start 1 2 ⟨4, 0⟩
  tr ++ yielded (Lts.final start tr) 1 ⟨2, 0⟩

theorem this_fiber_workerRun : Lts.Run (Step pool) start workerRun ∧
    Lts.Every (fun _ _ s' => Denotes (s'.threads 1)) start workerRun := by
  have hrun : Lts.Run (Step pool) start workerRun :=
    (resumed_run ⟨4, 4, 4⟩ rfl (.inl ⟨rfl, rfl⟩) rfl rfl).append (yielded_run ⟨2, 4, 4⟩ rfl rfl rfl nofun)
  have hg : ∀ {s : State} {a : Act}, NotToRoot pool 1 s a := fun _ _ _ _ _ _ _ => rfl
  exact ⟨hrun, (this_fiber_iff 1 start_init hrun).mpr ⟨hg, hg, hg, hg, hg, trivial⟩⟩

/-- The caller resumes m_rootFiber, that the task, which yields. -/
def callerRun : List (Act × State) :=
  let tr := resumed start 0 1 ⟨3, 0⟩
  let tr' := tr ++ resumed (Lts.final start tr) 0 2 ⟨1, 0⟩
  tr' ++ yielded (Lts.final start tr') 0 ⟨2, 0⟩

/-- m_rootFiber's code goes on while t_fiber is the main fiber. -/
theorem root_runs_as_main : Init pool start ∧ Lts.Run (Step pool) start callerRun ∧
    (Lts.final start callerRun).threads 0 = ⟨⟨3, 3, 1⟩, .code ⟨1, 1⟩⟩ ∧
    ¬Lts.Every (fun _ _ s' => Denotes (s'.threads 0)) start callerRun := by
  have hrun : Lts.Run (Step pool) start callerRun :=
    ((resumed_run ⟨3, 3, 1⟩ rfl (.inr ⟨rfl, rfl⟩) rfl rfl).append
      (resumed_run ⟨1, 3, 1⟩ rfl (.inl ⟨rfl, rfl⟩) rfl rfl)).append (yielded_run ⟨2, 3, 1⟩ rfl rfl rfl nofun)
  refine ⟨start_init, hrun, rfl, ?_⟩
  intro h
  have hlast : Denotes ((Lts.final start callerRun).threads 0) := h.2.2.2.2.2.2.2.1
  cases hlast ⟨1, 1⟩ rfl

end Sylar.Current
