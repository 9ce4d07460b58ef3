/-
  Sylar.Fiber.Nested — programs of nested resumes among fibers that do not run in a
  scheduler, on one thread (sylar/fiber.cpp lines 115-156).

  Actors. The thread's main fiber and any fibers constructed with run_in_scheduler =
  false. A program gives each fiber its body: statements that work, resume a fiber, yield
  (`Fiber::GetThis()->yield()`) or end the body. A resume saves the running context into
  the thread fiber's m_ctx, a yield or an end continues from there. A step whose
  assertion fails has no successor.

  Beside the state stand the resume() calls that have not returned and the statements
  executed. Proved: every call returns to its caller when the resumed fiber yields or
  ends, no statement is executed twice and main continues, exactly when no fiber yields or
  ends after it has resumed another (`resume_returns_iff`). With one nested resume the outer
  fiber, at its end, goes to its own context of that resume and not to main
  (`nested_resume_reenters`). A context is a point of a body here: that the frames it was
  saved in are gone by then, so that the process crashes there, is left out.
-/

import Sylar.Lib.Lts
import Sylar.Fiber.Switch

namespace Sylar.Nested

open Switch

inductive Stmt where
  | work
  | resume (g : FiberId)
  | yield
  | finish
  deriving DecidableEq, Repr

/-- The thread's main fiber. -/
def main : FiberId := 0

/-- The main fiber resumes and does not yield. -/
structure Program where
  body : Point → Stmt
  main_stays : ∀ i, body ⟨main, i⟩ ≠ .yield

/-- A resume() call that has not returned. -/
structure Call where
  callee : FiberId
  ret : Point
  deriving DecidableEq, Repr

structure State where
  tls : Tls
  fibers : Fibers
  cur : Point
  calls : List Call
  ran : List Point

namespace State

def work (s : State) : State := { s with cur := s.cur.next, ran := s.cur :: s.ran }

/-- `g->resume()`. -/
def resume (s : State) (g : FiberId) : State :=
  let tls := s.tls.SetThis g
  let fibers := (s.fibers.setState g .RUNNING).save (s.fibers.home tls g) s.cur.next
  { tls, fibers, cur := fibers.m_ctx g, calls := ⟨g, s.cur.next⟩ :: s.calls, ran := s.cur :: s.ran }

/-- `f->yield()`. -/
def yield (s : State) (f : FiberId) : State :=
  let tls := s.tls.SetThis s.tls.t_thread_fiber
  let fibers := (s.fibers.yielded f).save f s.cur.next
  { tls, fibers, cur := fibers.m_ctx (fibers.home tls f), calls := s.calls.tail, ran := s.cur :: s.ran }

/-- MainFunc after m_cb() has returned. -/
def finish (s : State) : State := { s with fibers := s.fibers.setState s.cur.fiber .TERM }.yield s.cur.fiber

end State

inductive Step (prog : Program) (s : State) : Stmt → State → Prop
  | work : prog.body s.cur = .work → Step prog s .work s.work
  | resume (g : FiberId) : prog.body s.cur = .resume g → s.fibers.m_state g = .READY →
      Step prog s (.resume g) (s.resume g)
  | yield : prog.body s.cur = .yield → s.fibers.m_state s.tls.t_fiber ≠ .READY →
      Step prog s .yield (s.yield s.tls.t_fiber)
  | finish : prog.body s.cur = .finish → s.cur.fiber ≠ main → Step prog s .finish s.finish

/-- main has called GetThis(), the other fibers have not run. -/
structure Init (s : State) : Prop where
  tls : s.tls.t_fiber = main ∧ s.tls.t_thread_fiber = main
  state : ∀ f, s.fibers.m_state f = if f = main then .RUNNING else .READY
  ctx : ∀ f, f ≠ main → s.fibers.m_ctx f = ⟨f, 0⟩
  outside : ∀ f, s.fibers.m_runInScheduler f = false
  cur : s.cur = ⟨main, 0⟩
  calls : s.calls = []
  ran : s.ran = []

/-- A fiber hands control back: it yields or its body ends. -/
def Leaves (s : State) (a : Stmt) : Prop := s.cur.fiber ≠ main ∧ (a = .yield ∨ a = .finish)

/-- The statement is executed for the first time; a resume() enters the fiber, and returns
    to its caller when that fiber yields or ends; with no call pending main runs. -/
structure Returns (s : State) (a : Stmt) (s' : State) : Prop where
  once : s.cur ∉ s.ran
  enters : ∀ g, a = .resume g → s'.cur.fiber = g ∧ s'.calls = ⟨g, s.cur.next⟩ :: s.calls
  returns : Leaves s a → s.calls = ⟨s.cur.fiber, s'.cur⟩ :: s'.calls
  stays : a = .work → s'.cur = s.cur.next ∧ s'.calls = s.calls
  main : s'.calls = [] → s'.cur.fiber = main

/-- The body of `f` resumes a fiber before its statement `n`. -/
def Made (prog : Program) (f : FiberId) (n : Nat) : Prop := ∃ i < n, ∃ g, prog.body ⟨f, i⟩ = .resume g

/-- A fiber yields or ends only if it has not resumed another. -/
def NoResumeBefore (prog : Program) (s : State) (a : Stmt) : Prop := Leaves s a → ¬Made prog s.cur.fiber s.cur.pos

/-! ## The pending calls -/

/-- The calls, from the running fiber down to main. Each caller waits behind the
    statements it has executed, the last of them a resume. -/
def Stacked (prog : Program) (pos : FiberId → Nat) : FiberId → List Call → Prop
  | f, [] => f = main
  | f, c :: rest => f ≠ main ∧ c.callee = f ∧ c.ret.pos = pos c.ret.fiber ∧ Made prog c.ret.fiber c.ret.pos ∧
      Stacked prog pos c.ret.fiber rest

variable {prog : Program} {pos : FiberId → Nat} {s s' : State} {a : Stmt} {f : FiberId}

theorem Stacked.congr {pos' : FiberId → Nat} {calls : List Call} (h : Stacked prog pos f calls)
    (he : ∀ c ∈ calls, pos' c.ret.fiber = pos c.ret.fiber) : Stacked prog pos' f calls := by
  induction calls generalizing f with
  | nil => exact h
  | cons c rest ih =>
    obtain ⟨hf, hc, hr, hm, ht⟩ := h
    exact ⟨hf, hc, hr.trans (he c (.head _)).symm, hm, ih ht fun d hd => he d (.tail _ hd)⟩

/-- `pos f` is the number of statements that `f` has executed. -/
structure Inv (prog : Program) (pos : FiberId → Nat) (s : State) : Prop where
  cur : s.cur.pos = pos s.cur.fiber
  stacked : Stacked prog pos s.cur.fiber s.calls
  running : ∀ f, f = main ∨ f = s.cur.fiber ∨ (∃ c ∈ s.calls, c.ret.fiber = f) → s.fibers.m_state f = .RUNNING
  nodup : (s.cur.fiber :: s.calls.map (·.ret.fiber)).Nodup
  ready : ∀ g, s.fibers.m_state g = .READY → s.fibers.m_ctx g = ⟨g, pos g⟩ ∧ ¬Made prog g (pos g)
  ran : ∀ q ∈ s.ran, q.pos < pos q.fiber
  thread : s.tls.t_thread_fiber = main
  outside : ∀ f, s.fibers.m_runInScheduler f = false
  /-- Until a fiber resumes another, main's context is where it was resumed. -/
  fresh : s.cur.fiber ≠ main → ¬Made prog s.cur.fiber s.cur.pos →
    s.tls.t_fiber = s.cur.fiber ∧ ∀ c ∈ s.calls.head?, s.fibers.m_ctx main = c.ret
  /-- From then on it is one of the fiber's own. -/
  stale : s.cur.fiber ≠ main → Made prog s.cur.fiber s.cur.pos →
    s.tls.t_fiber = main ∧ (s.fibers.m_ctx main).fiber = s.cur.fiber

theorem not_made_zero : ¬Made prog f 0 := fun ⟨_, hi, _⟩ => nomatch hi

theorem init_inv (h : Init s) : Inv prog (fun _ => 0) s where
  cur := by rw [h.cur]
  stacked := by
    rw [h.cur, h.calls]
    rfl
  running f hf := by
    rw [h.cur, h.calls] at hf
    rw [h.state, if_pos]
    simpa using hf
  nodup := by simp [h.calls]
  ready g hg := by
    rw [h.state] at hg
    by_cases e : g = main
    · rw [if_pos e] at hg
      cases hg
    · exact ⟨h.ctx g e, not_made_zero⟩
  ran := by
    rw [h.ran]
    nofun
  thread := h.tls.2
  outside := h.outside
  fresh hne := by
    rw [h.cur] at hne
    exact absurd rfl hne
  stale hne := by
    rw [h.cur] at hne
    exact absurd rfl hne

theorem home_main {fibers : Fibers} {tls : Tls} (ho : ∀ f, fibers.m_runInScheduler f = false)
    (ht : tls.t_thread_fiber = main) : fibers.home tls f = main := by
  rw [Fibers.home, ho, ht]
  rfl

/-- The statement counts as executed. -/
def advance (pos : FiberId → Nat) (p : Point) : FiberId → Nat := Function.update pos p.fiber (p.pos + 1)

theorem advance_self (pos : FiberId → Nat) (p : Point) : advance pos p p.fiber = p.pos + 1 := Function.update_self ..

theorem advance_other {p : Point} (h : f ≠ p.fiber) : advance pos p f = pos f := Function.update_of_ne h ..

theorem ran_advance (h : Inv prog pos s) : ∀ q ∈ s.cur :: s.ran, q.pos < advance pos s.cur q.fiber := by
  intro q hq
  rcases List.mem_cons.mp hq with rfl | hq
  · rw [advance_self]
    exact Nat.lt_succ_self _
  · by_cases e : q.fiber = s.cur.fiber
    · have := h.ran q hq
      rw [e, advance_self, h.cur]
      rw [e] at this
      exact Nat.lt_succ_of_lt this
    · rw [advance_other e]
      exact h.ran q hq

theorem made_succ {n : Nat} :
    Made prog f (n + 1) ↔ Made prog f n ∨ ∃ g, prog.body ⟨f, n⟩ = .resume g := by
  constructor
  · intro ⟨i, hi, hg⟩
    rcases Nat.lt_succ_iff_lt_or_eq.mp hi with hi | rfl
    · exact .inl ⟨i, hi, hg⟩
    · exact .inr hg
  · intro hm
    rcases hm with ⟨i, hi, hg⟩ | hg
    · exact ⟨i, Nat.lt_succ_of_lt hi, hg⟩
    · exact ⟨n, Nat.lt_succ_self n, hg⟩

/-- No pending caller is the running fiber. -/
theorem caller_ne (h : Inv prog pos s) {c : Call} (hc : c ∈ s.calls) : c.ret.fiber ≠ s.cur.fiber := by
  intro e
  exact (List.nodup_cons.mp h.nodup).1 (e ▸ List.mem_map_of_mem hc)

theorem stacked_advance (h : Inv prog pos s) : Stacked prog (advance pos s.cur) s.cur.fiber s.calls :=
  h.stacked.congr fun _ hc => advance_other (caller_ne h hc)

theorem ready_ne (h : Inv prog pos s) {g : FiberId} (hg : s.fibers.m_state g = .READY)
    (hf : f = main ∨ f = s.cur.fiber ∨ ∃ c ∈ s.calls, c.ret.fiber = f) : g ≠ f := by
  intro heq
  subst heq
  rw [h.running g hf] at hg
  cases hg

/-! ## Steps -/

theorem work_inv (h : Inv prog pos s) (hb : prog.body s.cur = .work) : Inv prog (advance pos s.cur) s.work where
  cur := (advance_self ..).symm
  stacked := stacked_advance h
  running := h.running
  nodup := h.nodup
  ready g hg := by
    rw [advance_other (ready_ne h hg (.inr (.inl rfl)))]
    exact h.ready g hg
  ran := ran_advance h
  thread := h.thread
  outside := h.outside
  fresh hne hm := h.fresh hne fun hmade => hm (made_succ.mpr (.inl hmade))
  stale hne hm := by
    refine h.stale hne ((made_succ.mp hm).resolve_right ?_)
    intro ⟨g, hg⟩
    have hg : prog.body s.cur = .resume g := hg
    rw [hb] at hg
    cases hg

theorem resume_ctx (h : Inv prog pos s) {g : FiberId} :
    (s.resume g).fibers.m_ctx = Function.update s.fibers.m_ctx main s.cur.next := by
  have hh : s.fibers.home (s.tls.SetThis g) g = main := home_main h.outside h.thread
  show ((s.fibers.setState g .RUNNING).save (s.fibers.home (s.tls.SetThis g) g) s.cur.next).m_ctx = _
  rw [hh]
  rfl

theorem resume_cur (h : Inv prog pos s) {g : FiberId} (hg : s.fibers.m_state g = .READY) :
    (s.resume g).cur = ⟨g, pos g⟩ := by
  show (s.resume g).fibers.m_ctx g = _
  rw [resume_ctx h, Function.update_of_ne (ready_ne h hg (.inl rfl))]
  exact (h.ready g hg).1

theorem resume_inv (h : Inv prog pos s) {g : FiberId} (hb : prog.body s.cur = .resume g)
    (hg : s.fibers.m_state g = .READY) : Inv prog (advance pos s.cur) (s.resume g) := by
  have hgm : g ≠ main := ready_ne h hg (.inl rfl)
  have hgc : g ≠ s.cur.fiber := ready_ne h hg (.inr (.inl rfl))
  have hcur := resume_cur h hg
  have hstate : ∀ f, f ≠ g → (s.resume g).fibers.m_state f = s.fibers.m_state f :=
    fun f hf => Fibers.setState_other hf _
  have hself : (s.resume g).fibers.m_state g = .RUNNING := Fibers.setState_self ..
  have hmade : Made prog s.cur.fiber (s.cur.pos + 1) := made_succ.mpr (.inr ⟨g, hb⟩)
  refine ⟨?_, ?_, ?_, ?_, ?_, ran_advance h, h.thread, h.outside, ?_, ?_⟩
  · rw [hcur]
    exact (advance_other hgc).symm
  · rw [hcur]
    exact ⟨hgm, rfl, (advance_self ..).symm, hmade, stacked_advance h⟩
  · intro f hf
    by_cases e : f = g
    · rw [e, hself]
    · rw [hstate f e]
      apply h.running
      rw [hcur] at hf
      rcases hf with hf | hf | ⟨c, hc, hf⟩
      · exact .inl hf
      · exact absurd hf e
      · rcases List.mem_cons.mp hc with rfl | hc
        · exact .inr (.inl hf.symm)
        · exact .inr (.inr ⟨c, hc, hf⟩)
  · rw [hcur]
    refine List.nodup_cons.mpr ⟨?_, h.nodup⟩
    intro hm
    rcases List.mem_cons.mp hm with e | hm
    · exact hgc e
    · obtain ⟨c, hc, e⟩ := List.mem_map.mp hm
      exact ready_ne h hg (.inr (.inr ⟨c, hc, rfl⟩)) e.symm
  · intro k hk
    have hkg : k ≠ g := by
      intro heq
      subst heq
      rw [hself] at hk
      cases hk
    rw [hstate k hkg] at hk
    rw [resume_ctx h, Function.update_of_ne (ready_ne h hk (.inl rfl)), advance_other (ready_ne h hk (.inr (.inl rfl)))]
    exact h.ready k hk
  · intro _ _
    rw [hcur]
    refine ⟨rfl, ?_⟩
    intro c hc
    cases hc
    rw [resume_ctx h, Function.update_self]
  · intro _ hm
    rw [hcur] at hm
    exact absurd hm (h.ready g hg).2

/-- What a fiber's yield, or its end, leaves behind. -/
structure Left (s s' : State) (c : Call) : Prop where
  calls : s.calls = c :: s'.calls
  cur : s'.cur = c.ret
  tls : s'.tls.t_fiber = main ∧ s'.tls.t_thread_fiber = main
  ctx : s'.fibers.m_ctx = Function.update s.fibers.m_ctx s.cur.fiber s.cur.next
  state : ∀ f, f ≠ s.cur.fiber → s'.fibers.m_state f = s.fibers.m_state f
  outside : s'.fibers.m_runInScheduler = s.fibers.m_runInScheduler
  ran : s'.ran = s.cur :: s.ran

theorem left_inv (h : Inv prog pos s) {c : Call} (hl : Left s s' c) (hne : s.cur.fiber ≠ main)
    (hm : ¬Made prog s.cur.fiber (s.cur.pos + 1)) (hctx : s.fibers.m_ctx main = c.ret) :
    Inv prog (advance pos s.cur) s' := by
  have hst := stacked_advance h
  rw [hl.calls] at hst
  obtain ⟨-, -, hret, hmade, hrest⟩ := hst
  have hcn : c.ret.fiber ≠ s.cur.fiber := caller_ne h (hl.calls ▸ .head _)
  have hrn : ∀ d ∈ s'.calls, d.ret.fiber ≠ s.cur.fiber := fun d hd => caller_ne h (hl.calls ▸ .tail _ hd)
  have hnd := h.nodup
  rw [hl.calls] at hnd
  refine ⟨?_, ?_, ?_, ?_, ?_, ?_, hl.tls.2, ?_, ?_, ?_⟩
  · rw [hl.cur]
    exact hret
  · rw [hl.cur]
    exact hrest
  · intro f hf
    rw [hl.cur] at hf
    have hfc : f ≠ s.cur.fiber := by
      rcases hf with rfl | rfl | ⟨d, hd, rfl⟩
      · exact hne.symm
      · exact hcn
      · exact hrn d hd
    rw [hl.state f hfc]
    apply h.running
    rw [hl.calls]
    rcases hf with hf | hf | ⟨d, hd, hf⟩
    · exact .inl hf
    · exact .inr (.inr ⟨c, .head _, hf.symm⟩)
    · exact .inr (.inr ⟨d, .tail _ hd, hf⟩)
  · rw [hl.cur]
    exact (List.nodup_cons.mp hnd).2
  · intro g hg
    rw [hl.ctx]
    by_cases e : g = s.cur.fiber
    · rw [e, Function.update_self, advance_self]
      exact ⟨rfl, hm⟩
    · rw [hl.state g e] at hg
      rw [Function.update_of_ne e, advance_other e]
      exact h.ready g hg
  · rw [hl.ran]
    exact ran_advance h
  · rw [hl.outside]
    exact h.outside
  · rw [hl.cur]
    intro _ hn
    exact absurd hmade hn
  · rw [hl.cur, hl.ctx]
    intro _ _
    rw [Function.update_of_ne hne.symm, hctx]
    exact ⟨hl.tls.1, rfl⟩

/-- The pending call of a fiber other than main, and main's context behind it. -/
theorem call_fresh (h : Inv prog pos s) (hne : s.cur.fiber ≠ main) (hm : ¬Made prog s.cur.fiber s.cur.pos) :
    ∃ c rest, s.calls = c :: rest ∧ c.callee = s.cur.fiber ∧ s.tls.t_fiber = s.cur.fiber ∧
      s.fibers.m_ctx main = c.ret := by
  obtain ⟨ht, hc⟩ := h.fresh hne hm
  have hst := h.stacked
  cases hcalls : s.calls with
  | nil =>
    rw [hcalls] at hst
    exact absurd hst hne
  | cons c rest =>
    rw [hcalls] at hst hc
    exact ⟨c, rest, rfl, hst.2.1, ht, hc c rfl⟩

theorem yield_cur (ho : ∀ f, s.fibers.m_runInScheduler f = false) (ht : s.tls.t_thread_fiber = main) :
    (s.yield f).cur = Function.update s.fibers.m_ctx f s.cur.next main := by
  have hh : ((s.fibers.yielded f).save f s.cur.next).home (s.tls.SetThis s.tls.t_thread_fiber) f = main :=
    home_main (fun f => by simp [ho]) ht
  show ((s.fibers.yielded f).save f s.cur.next).m_ctx (Fibers.home _ _ _) = _
  rw [hh]
  show Function.update (s.fibers.yielded f).m_ctx f s.cur.next main = _
  rw [Fibers.yielded_ctx]

theorem yield_left {fibers : Fibers} (h : Inv prog pos s) {c : Call} {rest : List Call} (hcalls : s.calls = c :: rest)
    (hne : s.cur.fiber ≠ main) (hctx : s.fibers.m_ctx main = c.ret) (hfc : fibers.m_ctx = s.fibers.m_ctx)
    (hfo : fibers.m_runInScheduler = s.fibers.m_runInScheduler)
    (hfs : ∀ f, f ≠ s.cur.fiber → fibers.m_state f = s.fibers.m_state f) :
    Left s ({ s with fibers }.yield s.cur.fiber) c where
  calls := by
    show s.calls = c :: s.calls.tail
    rw [hcalls]
    rfl
  cur := by
    have ho : ∀ f, fibers.m_runInScheduler f = false := hfo ▸ h.outside
    rw [yield_cur (s := { s with fibers }) ho h.thread]
    show Function.update fibers.m_ctx _ _ main = _
    rw [Function.update_of_ne hne.symm, hfc, hctx]
  tls := ⟨h.thread, h.thread⟩
  ctx := by
    show Function.update (fibers.yielded s.cur.fiber).m_ctx _ _ = _
    rw [Fibers.yielded_ctx, hfc]
  state f hf := (Fibers.yielded_other hf).trans (hfs f hf)
  outside := by
    show (fibers.yielded s.cur.fiber).m_runInScheduler = _
    rw [Fibers.yielded_inScheduler, hfo]
  ran := rfl

/-- A fiber that has resumed no other leaves to the caller of its pending call. -/
theorem leave_left (h : Inv prog pos s) (hl : Leaves s a) (hm : ¬Made prog s.cur.fiber s.cur.pos)
    (hst : Step prog s a s') :
    ∃ c, Left s s' c ∧ c.callee = s.cur.fiber ∧ s.fibers.m_ctx main = c.ret ∧
      ¬Made prog s.cur.fiber (s.cur.pos + 1) := by
  obtain ⟨c, rest, hcalls, hcallee, ht, hctx⟩ := call_fresh h hl.1 hm
  have hm' : (∀ g, prog.body s.cur ≠ .resume g) → ¬Made prog s.cur.fiber (s.cur.pos + 1) := by
    intro hb hmade
    obtain ⟨g, hg⟩ := (made_succ.mp hmade).resolve_left hm
    exact hb g hg
  cases hst with
  | work => exact absurd hl.2 (by simp)
  | resume => exact absurd hl.2 (by simp)
  | yield hb =>
    refine ⟨c, ?_, hcallee, hctx, hm' (by simp [hb])⟩
    rw [ht]
    exact yield_left h hcalls hl.1 hctx rfl rfl fun _ _ => rfl
  | finish hb =>
    exact ⟨c, yield_left h hcalls hl.1 hctx rfl rfl fun _ hf => Fibers.setState_other hf _, hcallee, hctx,
      hm' (by simp [hb])⟩

/-- One that has resumed another continues itself. -/
theorem leave_reenters (h : Inv prog pos s) (hl : Leaves s a) (hm : Made prog s.cur.fiber s.cur.pos)
    (hst : Step prog s a s') : s'.cur.fiber = s.cur.fiber := by
  obtain ⟨ht, hctx⟩ := h.stale hl.1 hm
  cases hst with
  | work => exact absurd hl.2 (by simp)
  | resume => exact absurd hl.2 (by simp)
  | yield =>
    rw [ht, yield_cur h.outside h.thread, Function.update_self]
    rfl
  | finish =>
    rw [State.finish, yield_cur (s := { s with fibers := s.fibers.setState s.cur.fiber .TERM }) h.outside h.thread,
      Function.update_of_ne hl.1.symm]
    exact hctx

theorem once (h : Inv prog pos s) : s.cur ∉ s.ran := by
  intro hm
  have := h.ran _ hm
  rw [h.cur] at this
  exact Nat.lt_irrefl _ this

theorem runs_main (h : Inv prog pos s) (hc : s.calls = []) : s.cur.fiber = main := by
  have hst := h.stacked
  rw [hc] at hst
  exact hst

theorem step_cases (hst : Step prog s a s') : Leaves s a ∨ (prog.body s.cur = .work ∧ a = .work ∧ s' = s.work) ∨
    ∃ g, prog.body s.cur = .resume g ∧ s.fibers.m_state g = .READY ∧ a = .resume g ∧ s' = s.resume g := by
  cases hst with
  | work hb => exact .inr (.inl ⟨hb, rfl, rfl⟩)
  | resume g hb hg => exact .inr (.inr ⟨g, hb, hg, rfl, rfl⟩)
  | yield hb =>
    refine .inl ⟨?_, .inl rfl⟩
    intro e
    have hcur : s.cur = ⟨main, s.cur.pos⟩ := by rw [← e]
    rw [hcur] at hb
    exact prog.main_stays _ hb
  | finish hb hne => exact .inl ⟨hne, .inr rfl⟩

theorem step_inv (h : ∃ pos, Inv prog pos s) (hg : NoResumeBefore prog s a) (hst : Step prog s a s') :
    ∃ pos, Inv prog pos s' := by
  obtain ⟨pos, h⟩ := h
  rcases step_cases hst with hl | ⟨hb, rfl, rfl⟩ | ⟨g, hb, hready, rfl, rfl⟩
  · obtain ⟨c, hleft, -, hctx, hm⟩ := leave_left h hl (hg hl) hst
    exact ⟨_, left_inv h hleft hl.1 hm hctx⟩
  · exact ⟨_, work_inv h hb⟩
  · exact ⟨_, resume_inv h hb hready⟩

/-- A step is as it should be exactly when it is no yield or end after a resume. -/
theorem step_returns_iff (h : ∃ pos, Inv prog pos s) (hst : Step prog s a s') :
    Returns s a s' ↔ NoResumeBefore prog s a := by
  obtain ⟨pos, h⟩ := h
  constructor
  · intro hr hl hm
    have hcur := leave_reenters h hl hm hst
    have hmem : (⟨s.cur.fiber, s'.cur⟩ : Call) ∈ s.calls := by
      rw [hr.returns hl]
      exact .head _
    exact caller_ne h hmem hcur
  · intro hg
    obtain ⟨pos', h'⟩ := step_inv ⟨pos, h⟩ hg hst
    rcases step_cases hst with hl | ⟨-, rfl, rfl⟩ | ⟨g, -, hready, rfl, rfl⟩
    · obtain ⟨c, hleft, hcallee, -⟩ := leave_left h hl (hg hl) hst
      refine ⟨once h, ?_, ?_, ?_, runs_main h'⟩
      · intro g heq
        subst heq
        exact absurd hl.2 (by simp)
      · intro _
        rw [hleft.calls, hleft.cur, ← hcallee]
      · intro heq
        subst heq
        exact absurd hl.2 (by simp)
    · exact ⟨once h, nofun, fun hl => absurd hl.2 (by simp), fun _ => ⟨rfl, rfl⟩, runs_main h'⟩
    · refine ⟨once h, ?_, fun hl => absurd hl.2 (by simp), nofun, runs_main h'⟩
      intro _ hx
      cases hx
      exact ⟨congrArg Point.fiber (resume_cur h hready), rfl⟩

/-- In every run of every program: each resume() returns to its caller when the resumed
    fiber yields or ends, no statement is executed twice and main runs when no call is
    pending, exactly when no fiber yields or ends after it has resumed another. -/
theorem resume_returns_iff {tr : List (Stmt × State)} (h0 : Init s) (h : Lts.Run (Step prog) s tr) :
    Lts.Every Returns s tr ↔ Lts.Every (fun s a _ => NoResumeBefore prog s a) s tr :=
  Lts.Run.every_iff (J := fun s => ∃ pos, Inv prog pos s) (fun _ _ _ => step_inv) (fun _ _ _ => step_returns_iff) h
    ⟨_, init_inv h0⟩

/-! ## Two programs -/

/-- The program with these bodies. -/
def Program.ofBodies (bodies : FiberId → List Stmt) (h : .yield ∉ bodies main) : Program where
  body p := ((bodies p.fiber)[p.pos]?).getD .finish
  main_stays i := by
    show ((bodies main)[i]?).getD .finish ≠ .yield
    cases hi : (bodies main)[i]? with
    | none => nofun
    | some x =>
      intro heq
      subst heq
      exact h (List.mem_of_getElem? hi)

def start : State where
  tls := ⟨main, main, main⟩
  fibers := ⟨fun f => if f = main then .RUNNING else .READY, fun f => ⟨f, 0⟩, fun _ => false⟩
  cur := ⟨main, 0⟩
  calls := []
  ran := []

theorem start_init : Init start := ⟨⟨rfl, rfl⟩, fun _ => rfl, fun _ _ => rfl, fun _ => rfl, rfl, rfl, rfl⟩

/-- main resumes fiber 1, which resumes fiber 2 twice: it yields, and ends. -/
def inner : Program :=
  .ofBodies (fun f =>
    if f = main then [.resume 1] else if f = 1 then [.work, .resume 2, .work, .resume 2, .work]
    else [.work, .yield, .work]) (by decide)

/-- Up to the fifth statement of fiber 1. -/
def innerRun : List (Stmt × State) :=
  let s1 := start.resume 1
  let s2 := s1.work.resume 2
  let s3 := s2.work.yield 2
  let s4 := s3.work.resume 2
  let s5 := s4.work.finish
  [(.resume 1, s1), (.work, s1.work), (.resume 2, s2), (.work, s2.work), (.yield, s3), (.work, s3.work),
    (.resume 2, s4), (.work, s4.work), (.finish, s5), (.work, s5.work)]

theorem innerRun_run : Lts.Run (Step inner) start innerRun :=
  .cons (.resume 1 rfl rfl) (.cons (.work rfl) (.cons (.resume 2 rfl rfl) (.cons (.work rfl) (.cons (.yield rfl nofun)
    (.cons (.work rfl) (.cons (.resume 2 rfl rfl) (.cons (.work rfl) (.cons (.finish rfl nofun) (.cons (.work rfl)
      (.nil _))))))))))

theorem inner_no_resume {n : Nat} : ¬Made inner 2 n := by
  intro ⟨i, _, g, hg⟩
  have hb : inner.body ⟨2, i⟩ = (([.work, .yield, .work] : List Stmt)[i]?).getD .finish := rfl
  rw [hb] at hg
  match i, hg with
  | 0, hg => cases hg
  | 1, hg => cases hg
  | 2, hg => cases hg
  | _ + 3, hg => cases hg

theorem resume_returns_inner : Lts.Every Returns start innerRun ∧ (Lts.final start innerRun).cur = ⟨1, 5⟩ := by
  have hstay : ∀ {s : State} {a : Stmt}, a ≠ .yield → a ≠ .finish → NoResumeBefore inner s a :=
    fun hy hf hl => absurd hl.2 (not_or_intro hy hf)
  have hleave : ∀ {s : State} {a : Stmt}, s.cur.fiber = 2 → NoResumeBefore inner s a :=
    fun hc _ hm => inner_no_resume (hc ▸ hm)
  refine ⟨(resume_returns_iff start_init innerRun_run).mpr ?_, rfl⟩
  exact ⟨hstay nofun nofun, hstay nofun nofun, hstay nofun nofun, hstay nofun nofun, hleave rfl, hstay nofun nofun,
    hstay nofun nofun, hstay nofun nofun, hleave rfl, hstay nofun nofun, trivial⟩

/-- main resumes fiber 1, which resumes fiber 2 between two statements. -/
def nested : Program :=
  .ofBodies (fun f =>
    if f = main then [.resume 1, .work] else if f = 1 then [.work, .resume 2, .work] else [.work]) (by decide)

/-- Up to the end of fiber 1. -/
def nestedRun : List (Stmt × State) :=
  let s1 := start.resume 1
  let s2 := s1.work.resume 2
  let s3 := s2.work.finish
  [(.resume 1, s1), (.work, s1.work), (.resume 2, s2), (.work, s2.work), (.finish, s3), (.work, s3.work),
    (.finish, s3.work.finish)]

/-- When fiber 1 ends, no call is pending, but its own context behind its resume is next,
    where it has been before, and main does not continue. -/
theorem nested_resume_reenters : Init start ∧ Lts.Run (Step nested) start nestedRun ∧
    (Lts.final start nestedRun).calls = [] ∧ (Lts.final start nestedRun).cur = ⟨1, 2⟩ ∧
    ⟨1, 2⟩ ∈ (Lts.final start nestedRun).ran ∧ ¬Lts.Every Returns start nestedRun := by
  have hrun : Lts.Run (Step nested) start nestedRun :=
    .cons (.resume 1 rfl rfl) (.cons (.work rfl) (.cons (.resume 2 rfl rfl) (.cons (.work rfl)
      (.cons (.finish rfl nofun) (.cons (.work rfl) (.cons (.finish rfl nofun) (.nil _)))))))
  refine ⟨start_init, hrun, rfl, rfl, .tail _ (.head _), ?_⟩
  intro h
  have hlast : (Lts.final start nestedRun).cur.fiber = main := h.2.2.2.2.2.2.1.main rfl
  cases hlast

end Sylar.Nested
