/-
  Sylar.Scheduler.Drain — the base `Scheduler` can come to its end from wherever it is
  (sylar/scheduler.cpp lines 65-77, 79-182).

  Once `stop` was called and nothing more is scheduled, a thread that is inside a task
  ends it, one that finds a task takes it, and one that finds none comes through `idle`
  and `stopping` out of `run`. `rest` counts what is left: the queued tasks, and for each
  thread the steps to its next dequeue, or to its end when the queue is empty. In every
  state some step takes it down (`down`).

  A task pinned to a thread that is none of the scheduler's is never taken (`stays`):
  with one in the queue the scheduler does not end, and that is the only way for it not
  to, while queued fibers are READY when they are taken (`drains_iff`). What was handed in
  as `Fiber::ptr*` was never queued.
-/

import Sylar.Scheduler.Base
import Mathlib.Algebra.Order.BigOperators.Group.Finset
import Mathlib.Data.Fintype.EquivFin

namespace Sylar.Scheduler.Base

variable {c : Config} {s s' : State Unit Unit}

/-! ## `tickle` of the base class writes nothing -/

theorem dequeue_tickle (s : State Unit Unit) (t u : Tid) :
    ((s.dequeue t).th u).tickle = (s.th u).tickle ∨ ((s.dequeue t).th u).tickle = .check := by
  by_cases e : u = t
  · subst e
    have hself : ((s.dequeue u).th u).tickle =
        if (scan (Entry.eligible u) s.m_tasks).tickleMe then .check else (s.th u).tickle := by
      simp only [State.dequeue]
      split
      · rw [set_th_self]
      · rw [set_th_self]
    rw [hself]
    split
    · exact .inr rfl
    · exact .inl rfl
  · rw [dequeue_th_ne s e]
    exact .inl rfl

theorem run_tickle {a : RunAct} (h : RunStep c () s a s') (u : Tid) :
    (s'.th u).tickle = (s.th u).tickle ∨ (s'.th u).tickle = .check := by
  have hset (t : Tid) {x : Thread Unit} (hx : x.tickle = (s.th t).tickle ∨ x.tickle = .check) :
      ((s.set t x).th u).tickle = (s.th u).tickle ∨ ((s.set t x).th u).tickle = .check := by
    rw [set_th]
    split
    · rename_i e
      rw [e]
      exact hx
    · exact .inl rfl
  cases h with
  | dequeue _ => exact dequeue_tickle s _ u
  | @schedule t task _ =>
    rcases schedule_cases s t task with ⟨-, hth⟩ | ⟨-, hth⟩
    · rw [hth]
      exact hset t (.inr rfl)
    · rw [hth]
      exact .inl rfl
  | stop _ => exact .inl rfl
  | stopTickle _ _ => exact hset _ (.inr rfl)
  | _ => exact hset _ (.inl rfl)

theorem step_noWrite {a : Act} (h : Step c s a s') (hn : ∀ t, (s.th t).tickle ≠ .write) (u : Tid) :
    (s'.th u).tickle ≠ .write := by
  rcases h.split with ⟨b, h⟩ | ⟨t, -, rfl⟩ | ⟨t, -, hat, rfl⟩
  · rcases run_tickle h u with he | he
    · rw [he]
      exact hn u
    · rw [he]
      simp
  · rw [State.tickles, set_th]
    split
    · simp
    · exact hn u
  · rw [set_th]
    split
    · simp [hat.2]
    · exact hn u

theorem noWrite (h : Reach c s) : ∀ t, (s.th t).tickle ≠ .write :=
  h.inv (fun s hs t => by simp [hs.outside t]) fun _ _ _ hn hst => step_noWrite hst hn

/-! ## What is left to do -/

def weight (queued : Bool) (x : Thread Unit) : Nat :=
  (if x.tickle = .no then 0 else 1) +
    match x.pc with
    | .outside => 10
    | .start _ => 9
    | .slice _ => 8
    | .done _ => 7
    | .back => if queued || x.idleTerm then 3 else 7
    | .top => if queued || x.idleTerm then 2 else 6
    | .noTask => if queued || !x.idleTerm then 5 else 1
    | .idle _ => 4
    | .left => 0

def queued (s : State Unit Unit) : Bool := !s.m_tasks.isEmpty

def rest (c : Config) (s : State Unit Unit) : Nat × Nat :=
  (s.m_tasks.length, ∑ t ∈ c.threads, weight (queued s) (s.th t))

/-- `stop` was called, and each queued task has a thread that may run it. -/
structure Live (c : Config) (s : State Unit Unit) : Prop where
  inv : Inv c s
  stopping : s.m_stopping = true
  runnable : ∀ y ∈ s.m_tasks, ∃ t ∈ c.threads, y.eligible t = true
  noWrite : ∀ t, (s.th t).tickle ≠ .write

/-- Some step leaves less to do. -/
def Down (c : Config) (s : State Unit Unit) : Prop :=
  ∃ a s', Step c s a s' ∧ Live c s' ∧ Prod.Lex (· < ·) (· < ·) (rest c s') (rest c s)

theorem Live.step (hl : c.late = false) (h : Live c s) {a : Act} (hst : Step c s a s')
    (hq : ∀ y ∈ s'.m_tasks, y ∈ s.m_tasks) (hstop : s'.m_stopping = s.m_stopping) : Live c s' where
  inv := step_inv hl h.inv hst
  stopping := hstop.trans h.stopping
  runnable y hy := h.runnable y (hq y hy)
  noWrite := step_noWrite hst h.noWrite

/-- A thread moves on, with the queue as it is. -/
theorem Live.move (hl : c.late = false) (h : Live c s) {t : Tid} (ht : t ∈ c.threads) {a : Act} {x : Thread Unit}
    (hst : Step c s a s') (hth : s'.th = (s.set t x).th) (hq : s'.m_tasks = s.m_tasks)
    (hstop : s'.m_stopping = s.m_stopping) (hw : weight (queued s) x < weight (queued s) (s.th t)) : Down c s := by
  refine ⟨a, s', hst, h.step hl hst (fun y hy => hq ▸ hy) hstop, ?_⟩
  have hsum : ∑ u ∈ c.threads, weight (queued s') (s'.th u) < ∑ u ∈ c.threads, weight (queued s) (s.th u) := by
    have hqueued : queued s' = queued s := by unfold queued; rw [hq]
    rw [hqueued, hth]
    apply Finset.sum_lt_sum
    · intro u _
      exact set_keeps (fun v y => weight (queued s) y ≤ weight (queued s) (s.th v)) (Nat.le_refl _) fun _ => hw.le
    · exact ⟨t, ht, by rw [set_th_self]; exact hw⟩
  unfold rest
  rw [hq]
  exact Prod.Lex.right _ hsum

theorem Live.tickle_down (hl : c.late = false) (h : Live c s) {t : Tid} (ht : t ∈ c.threads)
    (hk : (s.th t).tickle ≠ .no) : Down c s := by
  have hcheck : (s.th t).tickle = .check := by
    cases hk' : (s.th t).tickle with
    | no => exact absurd hk' hk
    | check => rfl
    | write => exact absurd hk' (h.noWrite t)
  refine h.move hl ht (.tickle hcheck) rfl rfl rfl ?_
  simp [weight, hk]

/-- A thread inside a task comes to the end of it. -/
theorem Live.active_down (hl : c.late = false) (h : Live c s) {t : Tid} (ht : t ∈ c.threads)
    (hk : (s.th t).tickle = .no) (hact : (s.th t).pc.active = true) : Down c s := by
  cases hpc : (s.th t).pc with
  | start x =>
    refine h.move hl ht (.run (.resume ⟨hpc, hk⟩)) rfl rfl rfl ?_
    simp [weight, hpc, hk]
  | slice x =>
    refine h.move hl ht (.run (.finish ⟨hpc, hk⟩)) rfl rfl rfl ?_
    simp [weight, hpc, hk]
  | done x =>
    refine h.move hl ht (.run (.decr ⟨hpc, hk⟩)) rfl rfl rfl ?_
    cases hb : queued s || (s.th t).idleTerm <;> simp only [weight, hpc, hk, hb] <;> decide
  | _ => rw [hpc] at hact; cases hact

theorem Live.enter_down (hl : c.late = false) (h : Live c s) {t : Tid} (ht : t ∈ c.threads)
    (hk : (s.th t).tickle = .no) (hpc : (s.th t).pc = .outside) : Down c s := by
  refine h.move hl ht (.run (.enter ⟨hpc, hk⟩ ht fun _ => h.stopping)) rfl rfl rfl ?_
  cases hb : queued s || (s.th t).idleTerm <;> simp only [weight, hpc, hk, hb] <;> decide

/-! ## With a task in the queue -/

/-- A thread that may run a queued task comes to take one. -/
theorem Live.queued_down (hl : c.late = false) (h : Live c s) {y : Entry} (hy : y ∈ s.m_tasks) : Down c s := by
  obtain ⟨t, ht, hel⟩ := h.runnable y hy
  have hq : queued s = true := by
    unfold queued
    cases hs : s.m_tasks with
    | nil => rw [hs] at hy; cases hy
    | cons z zs => rfl
  have hterm : (s.th t).idleTerm = false := by
    cases hi : (s.th t).idleTerm with
    | false => rfl
    | true => rw [(h.inv.ended t hi).m_tasks] at hy; cases hy
  by_cases hk : (s.th t).tickle = .no
  · cases hpc : (s.th t).pc with
    | outside => exact h.enter_down hl ht hk hpc
    | top =>
      rcases dequeue_cases s t with ⟨x, pre, post, k, hqs, -, -, -, hd⟩ | ⟨k, hno, -⟩
      · have hst : Step c s (.run (.dequeue t)) (s.dequeue t) := .run (.dequeue ⟨hpc, hk⟩)
        refine ⟨_, _, hst, h.step hl hst (fun z hz => ?_) (by rw [hd]), ?_⟩
        · rw [hd] at hz
          rw [hqs]
          rcases List.mem_append.mp hz with hz | hz
          · exact List.mem_append_left _ hz
          · exact List.mem_append_right _ (List.mem_cons_of_mem _ hz)
        · refine Prod.Lex.left _ _ ?_
          rw [hd, hqs]
          simp
      · rw [hno y hy] at hel
        cases hel
    | start x => exact h.active_down hl ht hk (by rw [hpc]; rfl)
    | slice x => exact h.active_down hl ht hk (by rw [hpc]; rfl)
    | done x => exact h.active_down hl ht hk (by rw [hpc]; rfl)
    | noTask =>
      refine h.move hl ht (.run (.goIdle ⟨hpc, hk⟩ hterm)) rfl rfl rfl ?_
      simp [weight, hpc, hk, hq]
    | idle i =>
      refine h.move hl ht (.idle ⟨hpc, hk⟩) rfl rfl rfl ?_
      simp [weight, hpc, hk, hq]
    | back =>
      refine h.move hl ht (.run (.back ⟨hpc, hk⟩)) rfl rfl rfl ?_
      simp [weight, hpc, hk, hq]
    | left =>
      rw [h.inv.left t hpc] at hterm
      cases hterm
  · exact h.tickle_down hl ht hk

/-! ## With the queue empty -/

theorem dequeue_nil (hq : s.m_tasks = []) (t : Tid) : s.dequeue t = s.goto t .noTask := by
  cases s
  simp only at hq
  subst hq
  rfl

/-- A thread that has not left goes on to its end. -/
theorem Live.empty_down (hl : c.late = false) (h : Live c s) (hq : s.m_tasks = []) {t : Tid} (ht : t ∈ c.threads)
    (hpc : (s.th t).pc ≠ .left) : Down c s := by
  have hqueued : queued s = false := by simp [queued, hq]
  by_cases hk : ∀ u ∈ c.threads, (s.th u).tickle = .no
  · by_cases hact : ∀ u ∈ c.threads, (s.th u).pc.active = false
    · -- nobody is inside a task, so `stopping` holds
      have hstopping : Scheduler.stopping s = true := by
        have hactive : s.m_activeThreadCount = 0 := h.inv.run.active.trans (countOn_eq_zero.mpr hact)
        simp [Scheduler.stopping, h.stopping, hq, hactive]
      have hkt := hk t ht
      cases hp : (s.th t).pc with
      | outside => exact h.enter_down hl ht hkt hp
      | top =>
        have hst : Step c s (.run (.dequeue t)) (s.goto t .noTask) :=
          dequeue_nil hq t ▸ .run (.dequeue ⟨hp, hkt⟩)
        refine h.move hl ht hst rfl rfl rfl ?_
        cases hterm : (s.th t).idleTerm <;> simp [weight, hp, hkt, hqueued, hterm]
      | noTask =>
        cases hterm : (s.th t).idleTerm with
        | false =>
          refine h.move hl ht (.run (.goIdle ⟨hp, hkt⟩ hterm)) rfl rfl rfl ?_
          simp [weight, hp, hkt, hqueued, hterm]
        | true =>
          refine h.move hl ht (.run (.leave ⟨hp, hkt⟩ hterm)) rfl rfl rfl ?_
          simp [weight, hp, hkt, hqueued, hterm]
      | idle i =>
        refine h.move hl ht (.idle ⟨hp, hkt⟩) rfl rfl rfl ?_
        simp [weight, hp, hkt, hqueued, hstopping]
      | back =>
        refine h.move hl ht (.run (.back ⟨hp, hkt⟩)) rfl rfl rfl ?_
        cases hterm : (s.th t).idleTerm <;> simp [weight, hp, hkt, hqueued, hterm]
      | left => exact absurd hp hpc
      | _ =>
        have hno := hact t ht
        rw [hp] at hno
        cases hno
    · simp only [not_forall] at hact
      obtain ⟨u, hu, hau⟩ := hact
      exact h.active_down hl hu (hk u hu) (by simpa using hau)
  · simp only [not_forall] at hk
    obtain ⟨u, hu, hku⟩ := hk
    exact h.tickle_down hl hu hku

theorem Live.down (hl : c.late = false) (h : Live c s) : (∀ t ∈ c.threads, (s.th t).pc = .left) ∨ Down c s := by
  cases hq : s.m_tasks with
  | cons y ys => exact .inr (h.queued_down hl (y := y) (by rw [hq]; exact List.mem_cons_self))
  | nil =>
    by_cases hall : ∀ t ∈ c.threads, (s.th t).pc = .left
    · exact .inl hall
    · simp only [not_forall] at hall
      obtain ⟨t, ht, hpc⟩ := hall
      exact .inr (h.empty_down hl hq ht hpc)

theorem Live.drains (hl : c.late = false) (h : Live c s) :
    ∃ s', Lts.Reach (· = s) (Step c) s' ∧ Live c s' ∧ ∀ t ∈ c.threads, (s'.th t).pc = .left :=
  Lts.Reach.down (WellFounded.prod_lex Nat.lt_wfRel.wf Nat.lt_wfRel.wf) (rest c)
    (fun _ hi => hi.down hl) h

/-! ## The call of `stop` -/

/-- Some thread that is none of the scheduler's calls `stop`. -/
theorem stop_live (hi : Inv c s) (hl : c.late = false) (hn : ∀ t, (s.th t).tickle ≠ .write)
    (hq : ∀ y ∈ s.m_tasks, ∃ t ∈ c.threads, y.eligible t = true) :
    ∃ s', Lts.Reach (· = s) (Step c) s' ∧ Live c s' := by
  obtain ⟨u, hu⟩ := Infinite.exists_notMem_finset c.threads
  have hout : (s.th u).pc = .outside := by_contra fun hne => hu (hi.run.members u hne)
  cases hk : (s.th u).tickle with
  | no =>
    have hst : Step c s (.run (.stop u)) _ := .run (.stop ⟨hout, hk⟩)
    exact ⟨_, Lts.Reach.single hst, step_inv hl hi hst, rfl, hq, step_noWrite hst hn⟩
  | check =>
    have hst : Step c s (.tickle u) (s.tickles u .no) := .tickle hk
    have hat : (s.tickles u .no).At u .outside := ⟨by rw [tickles_pc]; exact hout, by simp [State.tickles]⟩
    have hst' : Step c _ (.run (.stop u)) _ := .run (.stop hat)
    refine ⟨_, (Lts.Reach.single hst).trans (Lts.Reach.single hst'), ?_, rfl, hq, ?_⟩
    · exact step_inv hl (step_inv hl hi hst) hst'
    · exact step_noWrite hst' (step_noWrite hst hn)
  | write => exact absurd hk (hn u)

/-! ## A task that nobody may run -/

theorem stays {y : Entry} (hy : ∀ t ∈ c.threads, y.eligible t = false) {a : Act} (hi : Inv c s) (h : Step c s a s')
    (hm : y ∈ s.m_tasks) : y ∈ s'.m_tasks := by
  rcases h.split with ⟨b, h⟩ | ⟨t, -, rfl⟩ | ⟨t, -, -, rfl⟩
  · cases h with
    | @dequeue t hat =>
      rcases dequeue_cases s t with ⟨x, pre, post, k, hqs, hx, -, -, hd⟩ | ⟨k, -, hd⟩
      · have ht : t ∈ c.threads := hi.run.members t (by rw [hat.1]; simp)
        have hne : y ≠ x := fun e => by rw [← e, hy t ht] at hx; cases hx
        rw [hd]
        rw [hqs] at hm
        rcases List.mem_append.mp hm with hm | hm
        · exact List.mem_append_left _ hm
        · exact List.mem_append_right _ ((List.mem_cons.mp hm).resolve_left hne)
      · rw [hd]
        exact hm
    | schedule task _ =>
      rw [schedule_m_tasks]
      split
      · exact List.mem_append_left _ hm
      · exact hm
    | _ => exact hm
  · exact hm
  · exact hm

/-! ## The end -/

/-- In every run in which other threads schedule only before `stop`: from where it is the
    scheduler can come to have every thread out of `run`, each task started exactly once,
    if and only if no queued task is pinned to a thread that is none of its own. -/
theorem drains_iff (hl : c.late = false) (h : Reach c s) :
    (∃ s', Lts.Reach (· = s) (Step c) s' ∧ (∀ t ∈ c.threads, (s'.th t).pc = .left) ∧
      ∀ n < s'.submitted, (s'.started.map (·.1.number)).count n = 1) ↔
    ∀ y ∈ s.m_tasks, ∃ t ∈ c.threads, y.eligible t = true := by
  have hi := inv hl h
  constructor
  · intro ⟨s', hr, hleft, _⟩ y hy
    by_contra hno
    have hno' : ∀ t ∈ c.threads, y.eligible t = false := fun t ht => by simpa using fun he => hno ⟨t, ht, he⟩
    have hend : Inv c s' ∧ y ∈ s'.m_tasks := by
      refine hr.inv (I := fun u => Inv c u ∧ y ∈ u.m_tasks) ?_ ?_
      · rintro _ rfl
        exact ⟨hi, hy⟩
      · exact fun _ _ _ hiy hst => ⟨step_inv hl hiy.1 hst, stays hno' hiy.1 hst hiy.2⟩
    obtain ⟨t, ht⟩ := c.nonempty
    have he := hend.1.ended t (hend.1.left t (hleft t ht))
    rw [he.m_tasks] at hend
    cases hend.2
  · intro hq
    obtain ⟨s₁, hr₁, hlive₁⟩ := stop_live hi hl (noWrite h) hq
    obtain ⟨s₂, hr₂, hlive₂, hleft⟩ := hlive₁.drains hl
    obtain ⟨t, ht⟩ := c.nonempty
    have he := hlive₂.inv.ended t (hlive₂.inv.left t (hleft t ht))
    refine ⟨s₂, hr₁.trans hr₂, hleft, fun n hn => hlive₂.inv.run.all_started he.m_tasks (fun u => ?_) hn⟩
    have hact := he.not_active hlive₂.inv.run u
    cases hpc : (s₂.th u).pc with
    | start x => rw [hpc] at hact; cases hact
    | _ => rfl

/-- Thread 9 schedules a callback on one scheduler thread: it can be run to the end; one
    pinned to thread 5, which is not of the scheduler, cannot. -/
theorem drains_iff_oneThread :
    (∃ s, Reach oneThread s ∧ s.m_tasks ≠ [] ∧
      ∃ s', Lts.Reach (· = s) (Step oneThread) s' ∧ ∀ t ∈ oneThread.threads, (s'.th t).pc = .left) ∧
    ∃ s, Reach oneThread s ∧
      ¬∃ s', Lts.Reach (· = s) (Step oneThread) s' ∧ (∀ t ∈ oneThread.threads, (s'.th t).pc = .left) ∧
        ∀ n < s'.submitted, (s'.started.map (·.1.number)).count n = 1 := by
  have hstart : Reach oneThread (State.empty ()) := .init (empty_start ())
  have hany : Reach oneThread _ :=
    .step _ hstart (.schedule (t := 9) (.cb 7) none (.inr ⟨⟨rfl, rfl⟩, .inr rfl⟩))
  have hpinned : Reach oneThread _ :=
    .step _ hstart (.schedule (t := 9) (.cb 7) (some 5) (.inr ⟨⟨rfl, rfl⟩, .inr rfl⟩))
  constructor
  · refine ⟨_, hany, by decide, ?_⟩
    obtain ⟨s', hr, hleft, -⟩ := (drains_iff rfl hany).mpr (by decide)
    exact ⟨s', hr, hleft⟩
  · exact ⟨_, hpinned, fun hd => absurd ((drains_iff rfl hpinned).mp hd) (by decide)⟩

end Sylar.Scheduler.Base
