/-
  Sylar.IOManager.Wake — whether a task can be queued with every thread asleep
  (see `Sylar.IOManager.Machine`).

  `schedule` tickles only onto an empty queue, and `tickle` writes only if it finds an
  idle thread counted; a thread counts itself idle after its scan of the queue, outside
  the lock. So a task is safe while a byte is in the pipe, a `tickle` is under way or
  some thread will scan before it blocks (`Noticed`); what skips a notice, a `tickle`
  that finds no idle thread or a push behind pinned tasks only, relies on another one.

  Proved: when what skips a notice finds another (`Kept`), no run loses a wake-up
  (`no_lost_wakeup`). Without it one may (`wakeup_lost`).
-/

import Sylar.IOManager.Machine

namespace Sylar.IOMachine

open Scheduler

def Unpinned (s : IOState) : Prop := ∃ x ∈ s.m_tasks, x.task.m_threadId = none

/-- Past its scan, the thread is in epoll_wait or on the way there. -/
def rests : Pc IdlePc → Bool
  | .noTask | .idle .top | .idle .stop1 | .idle .stop2 | .idle .wait => true
  | _ => false

/-- The thread scans the queue before it runs a task or blocks. The caller's thread is
    not in `run` until `stop`. -/
def awake (c : Config) (t : Tid) : Pc IdlePc → Bool
  | .top | .done _ | .back | .idle .expire | .idle (.hand _) | .idle .events | .idle .triggered => true
  | .outside => c.caller != some t
  | _ => false

/-- A byte in the pipe, a `tickle` under way (but that of `skip`), or a thread awake. -/
def Noticed (c : Config) (skip : Option Tid) (s : IOState) : Prop :=
  0 < s.ext.pipe ∨ (∃ t, skip ≠ some t ∧ (s.th t).tickle ≠ .no) ∨ ∃ t ∈ c.threads, awake c t (s.th t).pc = true

/-- A thread rests. -/
def Resting (c : Config) (s : IOState) : Prop := ∃ t ∈ c.threads, rests (s.th t).pc = true

/-- An unpinned task does not wait for resting threads alone. -/
def Covered (c : Config) (s : IOState) : Prop := Unpinned s → Resting c s → Noticed c none s

/-- What leaves out a notice while an unpinned task is queued and a thread rests leaves
    another. -/
def Kept (c : Config) (s : IOState) : Act → Prop
  | .tickle t => s.m_idleThreadCount = 0 → Unpinned s → Resting c s → Noticed c (some t) s
  | .run (.schedule _ task) => task.nonEmpty = true → task.m_threadId = none → s.m_tasks ≠ [] → ¬ Unpinned s →
      Resting c s → Noticed c none s
  | _ => True

/-- An unpinned task is queued, threads block in epoll_wait on an empty pipe, every
    thread in `run` blocks or is inside a task, and no call of `schedule` is under way. -/
structure LostWakeup (c : Config) (s : IOState) : Prop where
  queued : Unpinned s
  blocked : ∃ t ∈ c.threads, (s.th t).pc = .idle .wait
  pipe : s.ext.pipe = 0
  others : ∀ t ∈ c.threads, (s.th t).pc = .idle .wait ∨ (∃ x, (s.th t).pc = .slice x) ∨ (s.th t).pc = .left ∨
    ((s.th t).pc = .outside ∧ c.caller = some t)
  quiet : ∀ t, (s.th t).tickle = .no

theorem Covered.not_lost {c : Config} {s : IOState} (h : Covered c s) : ¬ LostWakeup c s := by
  intro hl
  obtain ⟨t, ht, hpc⟩ := hl.blocked
  rcases h hl.queued ⟨t, ht, by rw [hpc]; rfl⟩ with hp | ⟨u, -, hu⟩ | ⟨u, hu, ha⟩
  · have := hl.pipe; omega
  · exact hu (hl.quiet u)
  · rcases hl.others u hu with h | ⟨x, h⟩ | h | ⟨h, hc⟩
    · rw [h] at ha; cases ha
    · rw [h] at ha; cases ha
    · rw [h] at ha; cases ha
    · rw [h] at ha; simp [awake, hc] at ha

/-! ## What keeps a task covered -/

theorem covered_awake {c : Config} {s : IOState} {t : Tid} (ht : t ∈ c.threads) (h : awake c t (s.th t).pc = true) :
    Covered c s := fun _ _ => .inr (.inr ⟨t, ht, h⟩)

theorem covered_tickling {c : Config} {s : IOState} {t : Tid} (h : (s.th t).tickle ≠ .no) : Covered c s :=
  fun _ _ => .inr (.inl ⟨t, by simp, h⟩)

/-- One thread changes, without going to rest or falling asleep. -/
theorem Covered.set {c : Config} {s s' : IOState} (h : Covered c s) {t : Tid} {y : Thread IdlePc}
    (hth : s'.th = (s.set t y).th) (hU : Unpinned s' → Unpinned s) (hp : s.ext.pipe ≤ s'.ext.pipe)
    (hr : rests y.pc = true → rests (s.th t).pc = true)
    (ha : awake c t (s.th t).pc = true → awake c t y.pc = true)
    (hk : (s.th t).tickle ≠ .no → y.tickle ≠ .no) : Covered c s' := by
  intro hu hx
  obtain ⟨v, hv, hrest⟩ := hx
  rw [hth] at hrest
  have hrest' := of_set (fun _ x => rests x.pc = true) hrest hr
  rcases h (hU hu) ⟨v, hv, hrest'⟩ with h | ⟨w, hw, h⟩ | ⟨w, hw, h⟩
  · exact .inl (by omega)
  · refine .inr (.inl ⟨w, hw, ?_⟩)
    rw [hth]
    exact set_keeps (fun _ x => x.tickle ≠ .no) h hk
  · refine .inr (.inr ⟨w, hw, ?_⟩)
    rw [hth]
    exact set_keeps (fun u x => awake c u x.pc = true) h ha

theorem Covered.goto {c : Config} {s : IOState} (h : Covered c s) {t : Tid} {pc : Pc IdlePc}
    (hr : rests pc = true → rests (s.th t).pc = true) (ha : awake c t (s.th t).pc = true → awake c t pc = true) :
    Covered c (s.goto t pc) :=
  h.set rfl id (Nat.le_refl _) hr ha id

theorem Covered.withExt {c : Config} {s : IOState} (h : Covered c s) {ext : Ext} (hp : s.ext.pipe ≤ ext.pipe) :
    Covered c (s.withExt ext) :=
  fun hu hr => (h hu hr).imp (fun h => Nat.lt_of_lt_of_le h hp) id

/-- The new task is unpinned, or the queue's unpinned task was there before. -/
theorem unpinned_schedule {s : IOState} {t : Tid} {task : ScheduleTask} (h : Unpinned (s.schedule t task)) :
    Unpinned s ∨ (task.nonEmpty = true ∧ task.m_threadId = none) := by
  obtain ⟨x, hx, hpin⟩ := h
  rw [schedule_m_tasks] at hx
  split at hx
  · rename_i hne
    rcases List.mem_append.mp hx with hx | hx
    · exact .inl ⟨x, hx, hpin⟩
    · rw [List.mem_singleton] at hx; subst hx; exact .inr ⟨hne, hpin⟩
  · exact .inl ⟨x, hx, hpin⟩

/-! ## Each step -/

theorem run_covered {c : Config} {s s' : IOState} (hi : Inv c s) (hc : Covered c s) {a : RunAct}
    (hg : Kept c s (.run a)) (h : RunStep c .top s a s') : Covered c s' := by
  cases h with
  | @enter t hat ht _ => exact covered_awake ht (by simp [awake])
  | @dequeue t hat =>
    rcases dequeue_cases s t with ⟨x, pre, post, k, -, -, -, hk, hd⟩ | ⟨k, hno, hd⟩ <;> rw [hd]
    · -- tasks that stay behind are tickled for
      by_cases hrest : pre ++ post = []
      · intro hx
        obtain ⟨y, hy, -⟩ := hx
        rw [show pre ++ post = [] from hrest] at hy; cases hy
      · exact covered_tickling (t := t) (by simp [hk hrest])
    · intro hx
      obtain ⟨y, hy, hpin⟩ := hx
      have := hno y hy
      rw [Entry.eligible, ScheduleTask.eligible_unpinned hpin] at this
      cases this
  | resume hat => exact hc.set rfl id (Nat.le_refl _) (fun h => by cases h) (fun h => by rw [hat.1] at h; cases h) id
  | @finish t x hat => exact covered_awake (hi.run.members t (by rw [hat.1]; simp)) (by simp [awake])
  | @decr t x hat =>
    exact covered_awake (t := t) (hi.run.members t (by rw [hat.1]; simp)) (by simp [State.goto, awake])
  | leave hat _ => exact hc.goto (fun h => by cases h) fun h => by rw [hat.1] at h; cases h
  | goIdle hat _ =>
    exact hc.set rfl id (Nat.le_refl _) (fun _ => by rw [hat.1]; rfl) (fun h => by rw [hat.1] at h; cases h) id
  | @back t hat =>
    exact covered_awake (t := t) (hi.run.members t (by rw [hat.1]; simp)) (by simp [State.goto, awake])
  | @schedule t task hu =>
    rcases schedule_cases s t task with ⟨-, hk⟩ | ⟨hne, hth⟩
    · exact covered_tickling (t := t) (by rw [hk]; simp [State.tickles])
    · have hsame : Noticed c none s → Noticed c none (s.schedule t task) := by
        unfold Noticed; rw [hth, schedule_ext]; exact id
      intro hU hx
      obtain ⟨v, hv, hr⟩ := hx
      rw [hth] at hr
      by_cases hold : Unpinned s
      · exact hsame (hc hold ⟨v, hv, hr⟩)
      · obtain ⟨hnew, hpin⟩ := (unpinned_schedule hU).resolve_left hold
        exact hsame (hg hnew hpin hne hold ⟨v, hv, hr⟩)
  | stop _ => exact hc
  | @stopTickle t _ _ => exact covered_tickling (t := t) (by simp [State.tickles])

theorem step_covered {c : Config} {s s' : IOState} {a : Act} (hi : Inv c s) (hc : Covered c s) (hg : Kept c s a)
    (h : Step c s a s') : Covered c s' := by
  have member {t : Tid} {i : IdlePc} (hat : s.At t (.idle i)) : t ∈ c.threads := hi.run.members t (by rw [hat.1]; simp)
  have goes {t : Tid} {i : IdlePc} (hat : s.At t (.idle i)) {pc : Pc IdlePc} (hpc : awake c t pc = true) :
      Covered c (s.goto t pc) := covered_awake (member hat) (by simpa using hpc)
  cases h with
  | run h => exact run_covered hi hc hg h
  | @tickle t hk =>
    by_cases hidle : 0 < s.m_idleThreadCount
    · rw [if_pos hidle]
      exact covered_tickling (t := t) (by simp [State.tickles])
    · rw [if_neg hidle]
      intro hU hx
      obtain ⟨v, hv, hr⟩ := hx
      rw [tickles_pc] at hr
      rcases hg (by omega) hU ⟨v, hv, hr⟩ with h | ⟨u, hu, h⟩ | ⟨u, hu, h⟩
      · exact .inl h
      · refine .inr (.inl ⟨u, by simp, ?_⟩)
        have hut : u ≠ t := fun he => hu (by rw [he])
        rwa [State.tickles, set_th, if_neg hut]
      · exact .inr (.inr ⟨u, hu, by rw [tickles_pc]; exact h⟩)
  | write _ => exact fun _ _ => .inl (Nat.succ_pos _)
  | @addTimer t timer atFront _ =>
    cases atFront with
    | true => exact covered_tickling (t := t) (by simp [State.tickles, State.withExt])
    | false => exact hc.withExt (Nat.le_refl _)
  | cancelTimer timer _ => exact hc.withExt (Nat.le_refl _)
  | addEvent task _ => exact hc.withExt (Nat.le_refl _)
  | delEvent task _ _ => exact hc.withExt (Nat.le_refl _)
  | stopping hat => exact hc.goto (fun _ => by rw [hat.1]; rfl) fun h => by rw [hat.1] at h; cases h
  | stopping1 hat => exact hc.goto (fun _ => by rw [hat.1]; rfl) fun h => by rw [hat.1] at h; cases h
  | @stopping2 t hat =>
    split
    · exact covered_awake (t := t) (member hat) (by simp [awake])
    · exact hc.goto (fun _ => by rw [hat.1]; rfl) fun h => by rw [hat.1] at h; cases h
  | wake hat => exact goes hat rfl
  | expire expired hat => exact covered_awake (member hat) (by simp [State.withExt, awake])
  | @hand t cb cbs hat => exact covered_awake (t := t) (member hat) (by simp [schedule_pc, awake])
  | handed hat => exact goes hat rfl
  | @drain t hat => exact covered_awake (t := t) (member hat) (by simp [State.withExt, hat.1, awake])
  | @trigger t task hat _ =>
    exact covered_awake (t := t) (member hat) (by simp [schedule_pc, State.withExt, awake])
  | decr hat => exact covered_awake (member hat) (by simp [State.withExt, awake])
  | yield hat => exact goes hat rfl

/-- No run whose steps are all `Kept` loses a wake-up. -/
theorem no_lost_wakeup {c : Config} {s : IOState} (h : Lts.Reach Start (Lts.guarded (Step c) (Kept c)) s) :
    ¬ LostWakeup c s := by
  have hinv : Inv c s ∧ Covered c s :=
    h.inv (I := fun s => Inv c s ∧ Covered c s)
      (fun s h0 => ⟨start_inv h0, fun ⟨x, hx, _⟩ => by rw [h0.run.m_tasks] at hx; cases hx⟩)
      fun s a s' hi ⟨hg, hst⟩ => ⟨step_inv hi.1 hst, step_covered hi.1 hi.2 hg hst⟩
  exact hinv.2.not_lost

/-! ## Runs -/

/-- Thread 1 blocks; thread 9 schedules a callback and writes to the pipe. -/
theorem no_lost_wakeup_notified : ∃ s : IOState, (s.th 1).pc = .idle .wait ∧ Unpinned s ∧ ¬ LostWakeup oneThread s := by
  have h0 : Lts.Reach Start (Lts.guarded (Step oneThread) (Kept oneThread)) _ := .init empty_start
  have h1 := h0.stepIf (.run (.enter (t := 1) ⟨rfl, rfl⟩ (by simp [oneThread]) (by simp [oneThread]))) trivial
  have h2 := h1.stepIf (.run (.dequeue (t := 1) ⟨rfl, rfl⟩)) trivial
  have h3 := h2.stepIf (.run (.goIdle (t := 1) ⟨rfl, rfl⟩ rfl)) trivial
  have h4 := h3.stepIf (.stopping (t := 1) ⟨rfl, rfl⟩) trivial
  have h5 := h4.stepIf (.stopping1 (t := 1) ⟨rfl, rfl⟩) trivial
  have h6 := h5.stepIf (.stopping2 (t := 1) ⟨rfl, rfl⟩) trivial
  have h7 := h6.stepIf (.run (.schedule (t := 9) (.ofCb 7 none) (.inr ⟨⟨rfl, rfl⟩, .inr rfl⟩)))
    fun _ _ h => absurd rfl h
  have h8 := h7.stepIf (.tickle (t := 9) rfl) fun h => by cases h
  have h9 := h8.stepIf (.write (t := 9) rfl) trivial
  exact ⟨_, rfl, ⟨_, List.mem_singleton_self _, rfl⟩, no_lost_wakeup h9⟩

/-- Thread 1 finds the queue empty; thread 9 schedules a callback and, finding no idle
    thread, skips the write; thread 1 counts itself idle and blocks. -/
theorem wakeup_lost : ∃ s, Reach oneThread s ∧ LostWakeup oneThread s := by
  have h0 : Reach oneThread _ := .init empty_start
  have h1 := h0.step _ (.run (.enter (t := 1) ⟨rfl, rfl⟩ (by simp [oneThread]) (by simp [oneThread])))
  have h2 := h1.step _ (.run (.dequeue (t := 1) ⟨rfl, rfl⟩))
  have h3 := h2.step _ (.run (.schedule (t := 9) (.ofCb 7 none) (.inr ⟨⟨rfl, rfl⟩, .inr rfl⟩)))
  have h4 := h3.step _ (.tickle (t := 9) rfl)
  have h5 := h4.step _ (.run (.goIdle (t := 1) ⟨rfl, rfl⟩ rfl))
  have h6 := h5.step _ (.stopping (t := 1) ⟨rfl, rfl⟩)
  have h7 := h6.step _ (.stopping1 (t := 1) ⟨rfl, rfl⟩)
  have h8 := h7.step _ (.stopping2 (t := 1) ⟨rfl, rfl⟩)
  refine ⟨_, h8, ⟨_, List.mem_singleton_self _, rfl⟩, ⟨1, by simp [oneThread], rfl⟩, rfl, ?_, ?_⟩
  · intro t ht
    rw [oneThread, Finset.mem_singleton] at ht
    subst ht; exact .inl rfl
  · intro t
    by_cases h1 : t = 1
    · subst h1; rfl
    · by_cases h9 : t = 9
      · subst h9; rfl
      · simp [State.set, State.goto, State.tickles, State.schedule, State.dequeue, State.empty, Function.update, h1,
          h9, scan, scheduleNoLock, stopping]

end Sylar.IOMachine
